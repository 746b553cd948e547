/-
  SymbolAtlas.Proofs.Attributes: which attributes findings have, and what fails without them.

  Storing a symbol, working on a file and looking up relations read attributes by their public
  names (`attributesRead`). A symbol has all of them; a mention has a name and a language, and
  nothing else that is read. Two dialects find mentions, so that a file in which one of them finds
  anything cannot be stored (`attributes_missing_iff`), and for one of the two not even its own
  relations can be looked up.
-/

import SymbolAtlas.Proofs.Operation
import SymbolAtlas.Proofs.Pipeline
import SymbolAtlas.Proofs.Run

namespace SymbolAtlas

/-- The attributes that are read of what was found in a file. -/
def attributesRead : List String :=
  ["name", "symbol_type", "language", "file_path", "line_start", "line_end", "code_snippet"]

/-! ## Fields by their keys -/

namespace Value

variable {k k' : String} {v : Value} {fields : List (String × Value)}

theorem field?_isSome_iff : (field? k fields).isSome = true ↔ k ∈ fields.map (·.1) := by
  rw [field?, Option.isSome_map, List.find?_isSome, List.mem_map]
  constructor
  · rintro ⟨f, hf, hk⟩
    exact ⟨f, List.mem_reverse.mp hf, beq_iff_eq.mp hk⟩
  · rintro ⟨f, hf, hk⟩
    exact ⟨f, List.mem_reverse.mpr hf, beq_iff_eq.mpr hk⟩

theorem mem_keys_putField :
    k' ∈ (putField k v fields).map (·.1) ↔ k' = k ∨ k' ∈ fields.map (·.1) := by
  induction fields with
  | nil => simp [putField]
  | cons f rest ih =>
      obtain ⟨k₀, v₀⟩ := f
      rw [putField]
      split
      next heq =>
        subst heq
        simp
      next =>
        simp only [List.map_cons, List.mem_cons, ih]
        exact or_left_comm

end Value

namespace Finding

/-- Whether an attribute is there. -/
def has (f : Finding) (key : String) : Bool := (Value.field? key f.fields).isSome

/-- Whether a finding is a symbol and no mention. -/
def isSymbol : Finding → Bool
  | .symbol _ => true
  | .mention _ => false

variable {f : Finding}

theorem mem_keys_of_isSymbol (h : f.isSymbol = true) {key : String} (hkey : key ∈ attributesRead) :
    key ∈ f.fields.map (·.1) := by
  cases f with
  | mention m => exact absurd h Bool.false_ne_true
  | symbol s =>
      rw [fields, List.map_append]
      refine List.mem_append_left _ ?_
      have hsub : ∀ key ∈ attributesRead, key ∈ ["name", "symbol_type", "line_start", "line_end",
          "code_snippet", "language", "file_path"] := by decide
      exact hsub key hkey

/-- A mention has no attribute for its kind. -/
theorem kind_not_mem_keys (h : f.isSymbol = false) : "symbol_type" ∉ f.fields.map (·.1) := by
  cases f with
  | symbol s => exact absurd h (by simp [isSymbol])
  | mention m =>
      obtain ⟨name, kind, line, file, language, scope⟩ := m
      cases scope <;> simp [fields]

theorem has_attributesRead_iff :
    (∀ key ∈ attributesRead, f.has key = true) ↔ f.isSymbol = true := by
  constructor
  · intro h
    cases hf : f.isSymbol with
    | true => rfl
    | false =>
        have hkind := Value.field?_isSome_iff.mp (h "symbol_type" (by decide))
        exact absurd hkind (kind_not_mem_keys hf)
  · intro h key hkey
    exact Value.field?_isSome_iff.mpr (mem_keys_of_isSymbol h hkey)

end Finding

/-! ## Storing -/

namespace Database

/-- A result that does not fail for a missing key. -/
def FindsKeys {α : Type} (r : Result α) : Prop := ∀ key, r ≠ .error (.missingKey key)

namespace FindsKeys

variable {α β : Type}

theorem ok (a : α) : FindsKeys (.ok a) := by
  intro key h
  exact absurd h (by simp)

theorem bind {r : Result α} {f : α → Result β} (h : FindsKeys r) (hf : ∀ a, FindsKeys (f a)) :
    FindsKeys (r >>= f) := by
  cases r with
  | ok a => exact hf a
  | error e =>
      intro key he
      exact h key (congrArg Except.error (Except.error.inj he))

end FindsKeys

theorem connect_findsKeys (db : Database) : FindsKeys db.connect := by
  intro key
  rw [connect]
  split <;> simp

theorem need_findsKeys (db : Database) (t : Table) : FindsKeys (db.need t) := by
  intro key
  rw [need]
  split <;> simp

theorem bind_findsKeys (position : Nat) (v : Value) : FindsKeys (Database.bind position v) := by
  intro key
  rw [Database.bind.eq_def]
  split
  · simp
  · simp
  · split <;> simp
  · simp
  · simp
  · simp

theorem bindText_findsKeys (position : Nat) (v : Value) : FindsKeys (bindText position v) :=
  .bind (bind_findsKeys position v) fun _ => .ok _

theorem bindNumber_findsKeys (position : Nat) (v : Value) : FindsKeys (bindNumber position v) :=
  .bind (bind_findsKeys position v) fun _ => .ok _

theorem notNull_findsKeys {α : Type} (t : Table) (column : String) (v : Option α) :
    FindsKeys (notNull t column v) := by
  intro key
  cases v <;> simp [notNull]

theorem addSymbol_findsKeys (db : Database) (d : SymbolData) : FindsKeys (db.addSymbol d) := by
  refine .bind db.connect_findsKeys fun _ => ?_
  refine .bind (db.need_findsKeys .symbols) fun _ => ?_
  dsimp only
  intro key
  split <;> simp [Bind.bind, Except.bind, pure, Except.pure]

theorem fieldOf_findsKeys {fields : List (String × Value)} {key : String}
    (h : key ∈ fields.map (·.1)) : FindsKeys (fieldOf (.object fields) key) := by
  obtain ⟨v, hv⟩ := Option.isSome_iff_exists.mp (Value.field?_isSome_iff.mpr h)
  rw [fieldOf, hv]
  exact .ok v

theorem insertSymbol_findsKeys {fields : List (String × Value)}
    (h : ∀ key ∈ "file_hash" :: attributesRead, key ∈ fields.map (·.1)) (db : Database)
    (project : Value) : FindsKeys (db.insertSymbol (.object fields) project) := by
  refine .bind db.connect_findsKeys fun _ => ?_
  iterate 8 refine .bind (fieldOf_findsKeys (h _ (by decide))) fun _ => ?_
  refine .bind (db.need_findsKeys .symbols) fun _ => ?_
  iterate 5 refine .bind (bindText_findsKeys _ _) fun _ => ?_
  iterate 2 refine .bind (bindNumber_findsKeys _ _) fun _ => ?_
  iterate 2 refine .bind (bindText_findsKeys _ _) fun _ => ?_
  split
  · intro key
    simp [Bind.bind, Except.bind]
  · iterate 8 refine .bind (notNull_findsKeys _ _ _) fun _ => ?_
    exact db.addSymbol_findsKeys _

/-- A mention cannot be stored: the kind is read right after the language. -/
theorem insertSymbol_mention {db : Database} (hopens : db.broken = false) (m : Mention)
    (digest : String) (project : Value) :
    db.insertSymbol
        (.object (Value.putField "file_hash" (.text digest) (Finding.mention m).fields)) project
      = .error (.missingKey "symbol_type") := by
  obtain ⟨name, kind, line, file, language, scope⟩ := m
  rw [insertSymbol, connect_ok hopens]
  cases scope <;> rfl

/-- Whether what is stored of a finding has all keys that are read: it is a symbol. -/
theorem insertSymbol_findsKeys_iff {db : Database} (hopens : db.broken = false) (f : Finding)
    (digest : String) (project : Value) :
    FindsKeys (db.insertSymbol
        (.object (Value.putField "file_hash" (.text digest) f.fields)) project) ↔
      f.isSymbol = true := by
  constructor
  · intro h
    cases f with
    | symbol s => rfl
    | mention m => exact absurd (insertSymbol_mention hopens m digest project) (h "symbol_type")
  · intro h
    refine insertSymbol_findsKeys (fun key hkey => Value.mem_keys_putField.mpr ?_) db project
    rcases List.mem_cons.mp hkey with rfl | hkey
    · exact .inl rfl
    · exact .inr (Finding.mem_keys_of_isSymbol h hkey)

end Database

/-! ## Dialects -/

namespace Dialect

variable {d : Dialect} {src : Source} {lines : List String}

/-- The dialects that find mentions. -/
def mentioning : List Dialect := [.shell, .kotlin]

theorem exists_mentions (h : d ∈ mentioning) (src : Source) (lines : List String) :
    ∃ ms : List Mention, d.findSymbols src lines = ms.map .mention := by
  simp only [mentioning, List.mem_cons, List.not_mem_nil, or_false] at h
  rcases h with rfl | rfl
  · exact ⟨_, rfl⟩
  · exact ⟨_, rfl⟩

theorem exists_symbols_of_not_mentioning (h : d ∉ mentioning) (src : Source)
    (lines : List String) : ∃ ss : List Symbol, d.findSymbols src lines = ss.map .symbol := by
  have hkotlin : d ≠ .kotlin := by
    rintro rfl
    exact h (by decide)
  have hshell : d ≠ .shell := by
    rintro rfl
    exact h (by decide)
  exact exists_symbols hkotlin hshell src lines

theorem isSymbol_of_mem {f : Finding} (hf : f ∈ d.findSymbols src lines) :
    f.isSymbol = true ↔ d ∉ mentioning := by
  by_cases h : d ∈ mentioning
  · obtain ⟨ms, hms⟩ := exists_mentions h src lines
    rw [hms] at hf
    obtain ⟨m, -, rfl⟩ := List.mem_map.mp hf
    simp [Finding.isSymbol, h]
  · obtain ⟨ss, hss⟩ := exists_symbols_of_not_mentioning h src lines
    rw [hss] at hf
    obtain ⟨s, -, rfl⟩ := List.mem_map.mp hf
    simp [Finding.isSymbol, h]

/-- What only symbols have, all findings have unless there are some and the dialect finds
mentions. -/
theorem forall_findSymbols_iff {P : Finding → Prop} (hP : ∀ f, P f ↔ f.isSymbol = true) :
    (∀ f ∈ d.findSymbols src lines, P f) ↔
      d.findSymbols src lines = [] ∨ d ∉ mentioning := by
  constructor
  · intro h
    cases hfound : d.findSymbols src lines with
    | nil => exact .inl rfl
    | cons f rest =>
        have hf : f ∈ d.findSymbols src lines := by
          rw [hfound]
          exact List.mem_cons_self
        exact .inr ((isSymbol_of_mem hf).mp ((hP f).mp (h f hf)))
  · rintro (h | h) f hf
    · rw [h] at hf
      exact absurd hf List.not_mem_nil
    · exact (hP f).mpr ((isSymbol_of_mem hf).mpr h)

/-- The relations of what a dialect finds can be looked up, except where it is in a script. -/
theorem findRelations_reads_iff (content : String) :
    Reads (d.findRelations content ((d.findSymbols src lines).map (·.outline))) ↔
      d.findSymbols src lines = [] ∨ d ≠ .shell := by
  by_cases hshell : d = .shell
  · subst hshell
    obtain ⟨ms, hms⟩ := exists_mentions (d := .shell) (by decide) src lines
    rw [hms]
    cases ms with
    | nil => simp [Dialect.findRelations_reads]
    | cons m rest =>
        -- the kind of the first mention is asked for before anything else
        have hfails : Dialect.shell.findRelations content
            (((m :: rest).map Finding.mention).map (·.outline)) = .error ⟨"symbol_type"⟩ := rfl
        rw [hfails]
        simp [Reads]
  · exact iff_of_true (findRelations_reads_own hshell src lines content) (.inr hshell)

end Dialect

/-! ## Files -/

/-- A file whose findings are read off its lines by the dialect of its language: the language has a
grammar and a query, but no symbol was captured. -/
structure Analyzer.FallsBack (a : Analyzer) (d : Dialect) (src : Source) (bytes : ByteArray)
    (lines : List String) : Prop where
  code : a.dialect = .code
  registry : a.registry = .standard
  dialect : Registry.builtin.get? src.language = some d
  language : Dialect.code.languageOf? (.parse src.file) = some src.language
  supports : a.supports src.language = true
  nothing : ∀ content, Text.decode? bytes = some content → a.captured src content = []
  content : (Text.decode? bytes).map Text.lines = some lines

theorem Analyzer.FallsBack.findings_eq {a : Analyzer} {d : Dialect} {src : Source}
    {bytes : ByteArray} {lines : List String} (h : a.FallsBack d src bytes lines) :
    (a.parseFile src.file (some bytes)).map (·.finding) = d.findSymbols src lines := by
  obtain ⟨content, hcontent, rfl⟩ := Option.map_eq_some_iff.mp h.content
  obtain ⟨relations, -, hparse⟩ :=
    parseFile_code h.code h.registry hcontent h.language h.supports
  rw [hparse, List.map_map, Function.comp_def, List.map_id', findings_code h.code h.registry,
    if_pos (h.nothing content hcontent), Registry.findSymbols, h.dialect]

namespace Indexer

variable {x : Indexer} {project path : String} {language : Option String}
  {file : Option ByteArray} {db : Database}

/-- The work on a file with nothing but symbols succeeds. -/
theorem indexFile_error_of_symbols (hdb : db.Sound) (hfits : db.Fits project path)
    {ss : List Symbol} (h : (x.parse path file).map (·.finding) = ss.map .symbol) :
    (x.indexFile project language path file db).error = none := by
  have hclear := hdb.clearable.removeFile hfits
  by_cases hparse : x.parse path file = []
  · rw [indexFile_nothing hclear hparse]
  · obtain ⟨items, st, -, -, -, -, -, herror⟩ := indexFile_stored language hclear hparse h
    exact herror

/-- The work on a file with mentions fails after the symbols of the file were removed. -/
theorem indexFile_of_mentions (hdb : db.Sound) (hfits : db.Fits project path)
    {ms : List Mention} (h : (x.parse path file).map (·.finding) = ms.map .mention)
    (hne : x.parse path file ≠ []) :
    x.indexFile project language path file db
      = { db := db.cleared path project, error := some "'symbol_type'" } := by
  have hclear := hdb.clearable.removeFile hfits
  obtain ⟨p, rest, hparse⟩ := List.exists_cons_of_ne_nil hne
  cases ms with
  | nil => exact absurd h (by simp [hparse])
  | cons m more =>
      rw [hparse, List.map_cons, List.map_cons, List.cons.injEq] at h
      exact indexFile_mention hclear hparse h.1

end Indexer

/-- Where attributes are missing that are read of what a dialect finds in lines: exactly where
something is found and the dialect finds mentions. Nothing that was found can be stored then, and a
file of which the dialect reads the lines is left without symbols. The relations of scripts cannot
be looked up either. Only when the file has more symbols than can be removed, none of this is
reached. -/
theorem attributes_missing_iff (d : Dialect) (src : Source) (lines : List String) {db : Database}
    (hdb : db.Sound) (project digest : String) :
    let found := d.findSymbols src lines
    let complete := found = [] ∨ d ∉ Dialect.mentioning
    ((∀ f ∈ found, ∀ key ∈ attributesRead, f.has key = true) ↔ complete) ∧
    ((∀ f ∈ found, ∀ key,
        db.insertSymbol (.object (Value.putField "file_hash" (.text digest) f.fields))
          (.text project) ≠ .error (.missingKey key)) ↔ complete) ∧
    (∀ content, (∃ relations, d.findRelations content (found.map (·.outline)) = .ok relations) ↔
      found = [] ∨ d ≠ .shell) ∧
    ∀ (a : Analyzer) (model : Option Model) (bytes : ByteArray), a.FallsBack d src bytes lines →
      let outcome := (Indexer.ofAnalyzer a model).indexFile project (some src.language) src.file
        (some bytes) db
      (db.Fits project src.file →
        (complete → outcome.error = none) ∧
        (¬complete → outcome.error = some "'symbol_type'" ∧
          outcome.db.store.rowsOf project src.file = [])) ∧
      (¬db.Fits project src.file →
        outcome.error = some DatabaseError.tooManyVariables.message ∧ outcome.db = db) := by
  intro found complete
  refine ⟨Dialect.forall_findSymbols_iff fun f => Finding.has_attributesRead_iff, ?_,
    fun content => Dialect.findRelations_reads_iff content, ?_⟩
  · exact Dialect.forall_findSymbols_iff fun f =>
      Database.insertSymbol_findsKeys_iff hdb.opens f digest (.text project)
  · intro a model bytes ha
    have hfound : ((Indexer.ofAnalyzer a model).parse src.file (some bytes)).map (·.finding)
        = found := ha.findings_eq
    refine ⟨fun hfits => ⟨?_, ?_⟩, fun hcrowded => ?_⟩
    · -- all findings are symbols, and a database without faults stores symbols
      intro hcomplete
      obtain ⟨ss, hss⟩ : ∃ ss : List Symbol, found = ss.map .symbol := by
        rcases hcomplete with hnil | hd
        · exact ⟨[], hnil⟩
        · exact Dialect.exists_symbols_of_not_mentioning hd src lines
      exact Indexer.indexFile_error_of_symbols hdb hfits (hfound.trans hss)
    · -- all findings are mentions, so that the first batch stops the work, after the removal
      intro hincomplete
      rw [not_or, Decidable.not_not] at hincomplete
      obtain ⟨ms, hms⟩ := Dialect.exists_mentions hincomplete.2 src lines
      have hne : (Indexer.ofAnalyzer a model).parse src.file (some bytes) ≠ [] := by
        intro hnil
        rw [hnil] at hfound
        exact hincomplete.1 hfound.symm
      rw [Indexer.indexFile_of_mentions hdb hfits (hfound.trans hms) hne]
      exact ⟨rfl, Store.rowsOf_removeFile_same db.store project src.file⟩
    · rw [Indexer.indexFile_crowded hdb.clearable hcrowded]
      exact ⟨rfl, rfl⟩

/-- An analyzer for a language whose query captures nothing. -/
def Analyzer.lineReader (language : String) : Analyzer where
  dialect := .code
  grammars := [language]
  query := fun _ => some "(ERROR) @error"

theorem attributes_missing_iff_python :
    Dialect.python.findSymbols ⟨"app.py", "python"⟩ ["def run(): pass", ""] ≠ [] ∧
      ((Indexer.ofAnalyzer (.lineReader "python") none).indexFile "p" (some "python") "app.py"
        (some "def run(): pass\n".toUTF8) {}).error = none := by
  have hfile : (Analyzer.lineReader "python").FallsBack .python ⟨"app.py", "python"⟩
      "def run(): pass\n".toUTF8 ["def run(): pass", ""] :=
    ⟨rfl, rfl, by decide +kernel, by decide +kernel, by decide, fun _ _ => rfl, by decide +kernel⟩
  obtain ⟨-, -, -, hindex⟩ := attributes_missing_iff .python ⟨"app.py", "python"⟩
    ["def run(): pass", ""] Database.sound_empty "p" ""
  exact ⟨by decide +kernel, ((hindex _ none _ hfile).1 (by decide)).1 (.inr (by decide))⟩

/-- A function in a script and one in Kotlin: both lack five attributes, and the work on their files
fails. -/
theorem mentions_lack_attributes :
    let script := Dialect.shell.findSymbols ⟨"run.sh", "bash"⟩ ["run() \x7b", "\x7d", ""]
    let kotlin := Dialect.kotlin.findSymbols ⟨"Run.kt", "kotlin"⟩ ["fun run() \x7b", "\x7d", ""]
    let missing := ["symbol_type", "file_path", "line_start", "line_end", "code_snippet"]
    script.map (fun f => (f.name, attributesRead.filter (!f.has ·))) = [("run", missing)] ∧
    kotlin.map (fun f => (f.name, attributesRead.filter (!f.has ·))) = [("run", missing)] ∧
    (Dialect.shell.findRelations "run() \x7b\n\x7d\n" (script.map (·.outline))).toBool = false ∧
    ((Indexer.ofAnalyzer (.lineReader "bash") none).indexFile "p" (some "bash") "run.sh"
      (some "run() \x7b\n\x7d\n".toUTF8) {}).error = some "'symbol_type'" ∧
    ((Indexer.ofAnalyzer (.lineReader "kotlin") none).indexFile "p" (some "kotlin") "Run.kt"
      (some "fun run() \x7b\n\x7d\n".toUTF8) {}).error = some "'symbol_type'" := by
  decide +kernel

end SymbolAtlas
