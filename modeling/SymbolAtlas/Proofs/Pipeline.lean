/-
  SymbolAtlas.Proofs.Pipeline: from the text of a file to its symbols and their relations.

  The relations of a text are looked up against outlines, and the lookup fails when an attribute is
  missing that it reads. Dialects read different attributes, but an outline that has all of them
  serves every dialect (`Dialect.findRelations_reads`), and Kotlin, which gives mentions, asks for
  names only. Where relations are wanted the lookup therefore never fails, whether the symbols were
  captured or read off the lines, and no file loses its symbols to it.
-/

import SymbolAtlas.Proofs.Findings

namespace SymbolAtlas

/-! ## Attributes that are there -/

/-- A result for which no attribute is missing. -/
def Reads {α : Type} (r : Except MissingField α) : Prop := ∃ a, r = .ok a

namespace Reads

variable {α β : Type}

theorem ok (a : α) : Reads (.ok a) := ⟨a, rfl⟩

theorem bind {r : Except MissingField α} {f : α → Except MissingField β} (h : Reads r)
    (hf : ∀ a, r = .ok a → Reads (f a)) : Reads (r >>= f) := by
  obtain ⟨a, rfl⟩ := h
  exact hf a rfl

end Reads

namespace Outline

/-- An outline that has all its attributes. -/
structure Complete (o : Outline) : Prop where
  name : o.name.isSome = true
  kind : o.kind.isSome = true
  first : o.first.isSome = true
  last : o.last.isSome = true

theorem require_reads {α : Type} (key : String) {v : Option α} (h : v.isSome = true) :
    Reads (require key v) := by
  obtain ⟨a, rfl⟩ := Option.isSome_iff_exists.mp h
  exact .ok a

variable {o : Outline}

theorem getName_reads (h : o.name.isSome = true) : Reads o.getName := require_reads _ h

theorem Complete.getKind (h : o.Complete) : Reads o.getKind := require_reads _ h.kind

theorem Complete.getFirst (h : o.Complete) : Reads o.getFirst := require_reads _ h.first

theorem Complete.covers (h : o.Complete) (line : Int) : Reads (o.covers line) := by
  refine .bind h.getFirst fun first _ => ?_
  split
  · exact .bind (require_reads _ h.last) fun last _ => .ok _
  · exact .ok false

end Outline

variable {outlines : List Outline}

theorem ownerAt_reads (h : ∀ o ∈ outlines, o.Complete) (line : Int) :
    Reads (ownerAt line outlines) := by
  induction outlines with
  | nil => exact .ok none
  | cons o rest ih =>
      obtain ⟨ho, hrest⟩ := List.forall_mem_cons.mp h
      refine .bind (ho.covers line) fun covers _ => ?_
      split
      · exact .bind (Outline.getName_reads ho.name) fun name _ => .ok (some name)
      · exact ih hrest

theorem ownersAt_reads (h : ∀ o ∈ outlines, o.Complete) (line : Int) :
    Reads (ownersAt line outlines) := by
  induction outlines with
  | nil => exact .ok []
  | cons o rest ih =>
      obtain ⟨ho, hrest⟩ := List.forall_mem_cons.mp h
      refine .bind (ho.covers line) fun covers _ => ?_
      split
      · refine .bind (Outline.getName_reads ho.name) fun name _ => ?_
        exact .bind (ih hrest) fun names _ => .ok (name :: names)
      · exact ih hrest

/-! ## Line rules -/

theorem CallRule.assign_reads (rule : CallRule) (h : ∀ o ∈ outlines, o.Complete)
    (sites : List (Nat × String)) : Reads (rule.assign outlines sites) := by
  induction sites with
  | nil => exact .ok []
  | cons site rest ih =>
      obtain ⟨n, word⟩ := site
      refine .bind (ownerAt_reads h n) fun owner _ => ?_
      cases owner with
      | none => exact ih
      | some name => exact .bind ih fun entries _ => .ok _

theorem LineRules.findRelations_reads (rules : LineRules) (h : ∀ o ∈ outlines, o.Complete)
    (lines : List String) : Reads (rules.findRelations outlines lines) :=
  .bind (rules.calls.assign_reads h _) fun _ _ => .ok _

/-! ## Kotlin -/

namespace Kotlin

theorem contextSymbol_reads (h : ∀ o ∈ outlines, o.name.isSome = true) (line : String) :
    Reads (contextSymbol line outlines) := by
  induction outlines with
  | nil => exact .ok none
  | cons o rest ih =>
      obtain ⟨ho, hrest⟩ := List.forall_mem_cons.mp h
      refine .bind (Outline.getName_reads ho) fun name _ => ?_
      split
      · exact .ok (some name)
      · exact ih hrest

theorem relationsOn_reads (h : ∀ o ∈ outlines, o.name.isSome = true) (n : Nat) (line : String) :
    Reads (relationsOn outlines n line) := by
  unfold relationsOn
  dsimp only
  split
  · -- a line without calls needs no context
    exact .ok _
  · exact .bind (contextSymbol_reads h line) fun _ _ => .ok _

theorem relationsFrom_reads (h : ∀ o ∈ outlines, o.name.isSome = true)
    (numbered : List (String × Nat)) : Reads (relationsFrom outlines numbered) := by
  induction numbered with
  | nil => exact .ok []
  | cons l rest ih =>
      obtain ⟨line, n⟩ := l
      refine .bind (relationsOn_reads h n line) fun here _ => ?_
      exact .bind ih fun later _ => .ok (here ++ later)

/-- The relations of Kotlin ask for names and for nothing else. -/
theorem findRelations_reads (h : ∀ o ∈ outlines, o.name.isSome = true) (lines : List String) :
    Reads (findRelations outlines lines) :=
  .bind (relationsFrom_reads h _) fun _ _ => .ok _

end Kotlin

/-! ## Scripts -/

namespace Shell

theorem ofKind_reads (h : ∀ o ∈ outlines, o.Complete) (kind : String) :
    Reads (ofKind kind outlines) := by
  induction outlines with
  | nil => exact .ok []
  | cons o rest ih =>
      obtain ⟨ho, hrest⟩ := List.forall_mem_cons.mp h
      refine .bind ho.getKind fun k _ => ?_
      exact .bind (ih hrest) fun others _ => .ok _

theorem mem_of_ofKind {kind : String} {picked : List Outline}
    (h : ofKind kind outlines = .ok picked) {o : Outline} (ho : o ∈ picked) : o ∈ outlines := by
  induction outlines generalizing picked with
  | nil =>
      obtain rfl := Except.ok.inj h
      exact ho
  | cons o' rest ih =>
      simp only [ofKind, Outline.bind_eq_ok] at h
      obtain ⟨k, -, others, hothers, h⟩ := h
      obtain rfl := Except.ok.inj h
      split at ho
      · rcases List.mem_cons.mp ho with rfl | ho
        · exact List.mem_cons_self
        · exact List.mem_cons_of_mem o' (ih hothers ho)
      · exact List.mem_cons_of_mem o' (ih hothers ho)

theorem places_reads (h : ∀ o ∈ outlines, o.name.isSome = true) (content : String)
    (pattern : String → Pattern) (relation : String → Nat → Relation) :
    Reads (places content pattern relation outlines) := by
  induction outlines with
  | nil => exact .ok []
  | cons o rest ih =>
      obtain ⟨ho, hrest⟩ := List.forall_mem_cons.mp h
      refine .bind (Outline.getName_reads ho) fun name _ => ?_
      exact .bind (ih hrest) fun later _ => .ok _

theorem findRelations_reads (h : ∀ o ∈ outlines, o.Complete) (content : String) :
    Reads (findRelations content outlines) := by
  refine .bind (ofKind_reads h _) fun functions hfunctions => ?_
  refine .bind (places_reads (fun o ho => (h o (mem_of_ofKind hfunctions ho)).name) _ _ _)
    fun calls _ => ?_
  refine .bind (ofKind_reads h _) fun vars hvars => ?_
  exact .bind (places_reads (fun o ho => (h o (mem_of_ofKind hvars ho)).name) _ _ _)
    fun uses _ => .ok _

end Shell

/-! ## Documents -/

namespace Markdown

variable {o : Outline}

theorem isHeading_reads (h : o.Complete) : Reads (isHeading o) :=
  .bind h.getKind fun _ _ => .ok _

theorem linkRelations_reads (h : ∀ o ∈ outlines, o.Complete) (found : List (Nat × Match)) :
    Reads (linkRelations outlines found) := by
  induction found with
  | nil => exact .ok []
  | cons l rest ih =>
      obtain ⟨n, m⟩ := l
      refine .bind (ownersAt_reads h n) fun owners _ => ?_
      exact .bind ih fun later _ => .ok _

theorem sectionAt_reads (h : ∀ o ∈ outlines, o.Complete) (line : Int) (current : Option String) :
    Reads (sectionAt line current outlines) := by
  induction outlines generalizing current with
  | nil => exact .ok current
  | cons o rest ih =>
      obtain ⟨ho, hrest⟩ := List.forall_mem_cons.mp h
      refine .bind (isHeading_reads ho) fun heading _ => ?_
      split
      · refine .bind ho.getFirst fun first _ => ?_
        split
        · exact .bind (Outline.getName_reads ho.name) fun name _ => ih hrest (some name)
        · exact ih hrest current
      · exact ih hrest current

theorem blockRelations_reads (h : ∀ o ∈ outlines, o.Complete) (opened : Option Nat)
    (current : Option String) (numbered : List (String × Nat)) :
    Reads (blockRelations outlines opened current numbered) := by
  induction numbered generalizing opened current with
  | nil => exact .ok []
  | cons l rest ih =>
      obtain ⟨line, n⟩ := l
      rw [blockRelations.eq_def]
      dsimp only
      split
      · cases opened with
        | none => exact .bind (sectionAt_reads h n current) fun here _ => ih (some n) here
        | some first =>
            refine .bind (ih none current) fun later _ => ?_
            cases current with
            | none => exact .ok later
            | some name => exact .ok _
      · exact ih opened current

theorem itemRelations_reads (h : ∀ o ∈ outlines, o.Complete) {item : Outline}
    (hitem : item.Complete) : Reads (itemRelations item outlines) := by
  induction outlines with
  | nil => exact .ok []
  | cons o rest ih =>
      obtain ⟨ho, hrest⟩ := List.forall_mem_cons.mp h
      refine .bind (isHeading_reads ho) fun heading _ => ?_
      split
      · refine .bind ho.getFirst fun first _ => ?_
        refine .bind hitem.getFirst fun line _ => ?_
        split
        · refine .bind (Outline.getName_reads ho.name) fun owner _ => ?_
          refine .bind (Outline.getName_reads hitem.name) fun target _ => ?_
          exact .bind (ih hrest) fun later _ => .ok _
        · exact ih hrest
      · exact ih hrest

theorem listRelations_reads (h : ∀ o ∈ outlines, o.Complete) {items : List Outline}
    (hitems : ∀ o ∈ items, o.Complete) : Reads (listRelations outlines items) := by
  induction items with
  | nil => exact .ok []
  | cons o rest ih =>
      obtain ⟨ho, hrest⟩ := List.forall_mem_cons.mp hitems
      refine .bind ho.getKind fun kind _ => ?_
      dsimp only
      split
      · refine .bind (itemRelations_reads h ho) fun here _ => ?_
        exact .bind (ih hrest) fun later _ => .ok (here ++ later)
      · refine .bind (.ok []) fun here _ => ?_
        exact .bind (ih hrest) fun later _ => .ok (here ++ later)

theorem findRelations_reads (h : ∀ o ∈ outlines, o.Complete) (lines : List String) :
    Reads (findRelations outlines lines) := by
  refine .bind (linkRelations_reads h _) fun linked _ => ?_
  refine .bind (blockRelations_reads h none none _) fun blocks _ => ?_
  exact .bind (listRelations_reads h h) fun items _ => .ok _

end Markdown

/-! ## Dialects -/

theorem Finding.outline_name (f : Finding) : f.outline.name.isSome = true := by
  cases f <;> rfl

theorem outlines_complete (ss : List Symbol) :
    ∀ o ∈ (ss.map Finding.symbol).map (·.outline), o.Complete := by
  intro o ho
  rw [List.map_map] at ho
  obtain ⟨s, -, rfl⟩ := List.mem_map.mp ho
  exact ⟨rfl, rfl, rfl, rfl⟩

namespace Dialect

/-- Outlines that have all attributes serve every dialect. -/
theorem findRelations_reads (d : Dialect) (h : ∀ o ∈ outlines, o.Complete) (content : String) :
    Reads (d.findRelations content outlines) := by
  unfold findRelations
  dsimp only
  split
  next rules _ => exact rules.findRelations_reads h _
  next =>
    split
    · exact Kotlin.findRelations_reads (fun o ho => (h o ho).name) _
    · exact Shell.findRelations_reads h content
    · exact .ok _
    · exact Markdown.findRelations_reads h _
    · exact .ok _

/-- All dialects but two find symbols in lines. -/
theorem exists_symbols {d : Dialect} (hkotlin : d ≠ .kotlin) (hshell : d ≠ .shell) (src : Source)
    (lines : List String) : ∃ ss : List Symbol, d.findSymbols src lines = ss.map .symbol := by
  unfold findSymbols
  split
  next rules _ => exact ⟨_, rfl⟩
  next =>
    split
    · exact absurd rfl hkotlin
    · exact absurd rfl hshell
    · exact ⟨_, rfl⟩
    · exact ⟨_, rfl⟩
    · exact ⟨_, rfl⟩
    · exact ⟨_, rfl⟩
    · exact ⟨[], rfl⟩

/-- A dialect can look up the relations of what it finds itself, except in scripts. -/
theorem findRelations_reads_own {d : Dialect} (hshell : d ≠ .shell) (src : Source)
    (lines : List String) (content : String) :
    Reads (d.findRelations content ((d.findSymbols src lines).map (·.outline))) := by
  by_cases hkotlin : d = .kotlin
  · subst hkotlin
    refine Kotlin.findRelations_reads (fun o ho => ?_) _
    obtain ⟨f, -, rfl⟩ := List.mem_map.mp ho
    exact f.outline_name
  · obtain ⟨ss, hss⟩ := exists_symbols hkotlin hshell src lines
    rw [hss]
    exact d.findRelations_reads (outlines_complete ss) content

end Dialect

/-! ## The table of dialects -/

namespace Registry

/-- What the dialect of a language reads off lines; other languages have rules in common. -/
def findSymbols (r : Registry) (src : Source) (lines : List String) : List Finding :=
  match r.get? src.language with
  | some d => d.findSymbols src lines
  | none => Declarations.generic.findSymbols src lines

/-- The relations that the dialect of a language finds; other languages have rules in common. -/
def findRelations (r : Registry) (language content : String) (symbols : List Outline) :
    Except MissingField Relations :=
  match r.get? language with
  | some d => d.findRelations content symbols
  | none => Declarations.generic.findRelations symbols (Text.lines content)

/-- Whether relations are looked for in a language; they are where it has no dialect. -/
def wantsRelations (r : Registry) (language : String) : Bool :=
  ((r.get? language).map Dialect.hasRelations).getD true

theorem mem_of_get? {r : Registry} {language : String} {d : Dialect}
    (h : r.get? language = some d) : (language, d) ∈ r.entries := by
  obtain ⟨e, hfind, rfl⟩ := Option.map_eq_some_iff.mp h
  have hkey : e.1 = language := by simpa using List.find?_some hfind
  rw [← hkey]
  exact List.mem_of_find?_eq_some hfind

theorem builtin_reads : ∀ e ∈ builtin.entries, e.2.reads = true := by decide

/-- A language that the table lacks has no dialect that is known from the start. -/
theorem standard_get?_of_builtin {language : String} (h : builtin.get? language = none) :
    standard.get? language = none := by
  rw [get?, Option.map_eq_none_iff] at h ⊢
  rw [builtin, List.find?_append, Option.or_eq_none_iff] at h
  exact h.1

/-- The `code` dialect leaves a language to the dialect in its table. -/
theorem delegate?_code (language : String) :
    Dialect.code.delegate? standard language = builtin.get? language := by
  rw [Dialect.delegate?]
  cases h : builtin.get? language with
  | some d => rfl
  | none => exact standard_get?_of_builtin h

/-- Where relations are wanted they can be looked up, for symbols as for what is read off lines. -/
theorem findRelations_reads {language : String} (hwants : builtin.wantsRelations language = true)
    {found : List Finding}
    (hfound : (∃ ss : List Symbol, found = ss.map .symbol) ∨
      ∃ file lines, found = builtin.findSymbols ⟨file, language⟩ lines) (content : String) :
    Reads (builtin.findRelations language content (found.map (·.outline))) := by
  rw [findRelations]
  rcases hfound with ⟨ss, rfl⟩ | ⟨file, lines, rfl⟩
  · cases builtin.get? language with
    | none => exact LineRules.findRelations_reads _ (outlines_complete ss) _
    | some d => exact d.findRelations_reads (outlines_complete ss) content
  · rw [findSymbols]
    rw [wantsRelations] at hwants
    cases hdialect : builtin.get? language with
    | none => exact LineRules.findRelations_reads _ (outlines_complete _) _
    | some d =>
        -- scripts are mentioned too, but their relations are not wanted
        have hshell : d ≠ .shell := by
          rintro rfl
          rw [hdialect] at hwants
          exact absurd hwants (by decide)
        exact Dialect.findRelations_reads_own hshell _ lines content

end Registry

/-! ## Files -/

namespace Analyzer

variable {a : Analyzer}

section Code

variable (hcode : a.dialect = .code) (hregistry : a.registry = .standard)

include hcode hregistry

theorem readLines_code (src : Source) (lines : List String) :
    a.readLines src lines = some (Registry.builtin.findSymbols src lines) := by
  rw [readLines, hcode, hregistry, Registry.delegate?_code, Registry.findSymbols]
  cases hdialect : Registry.builtin.get? src.language with
  | none => rfl
  | some d => simp only [Registry.builtin_reads _ (Registry.mem_of_get? hdialect), if_true]

theorem relations?_code (language content : String) (found : List Finding) :
    a.relations? language content found
      = if Registry.builtin.wantsRelations language then
          (Registry.builtin.findRelations language content (found.map (·.outline))).toOption
        else some {} := by
  rw [relations?, hcode, hregistry, Dialect.wantsRelations, Registry.delegate?_code,
    Registry.findRelations, Registry.wantsRelations]
  cases hdialect : Registry.builtin.get? language with
  | none => rfl
  | some d =>
      have hreads := Registry.builtin_reads _ (Registry.mem_of_get? hdialect)
      simp only [hreads, if_true]

theorem findings_code (src : Source) (content : String) :
    a.findings src content
      = if a.captured src content = [] then
          Registry.builtin.findSymbols src (Text.lines content)
        else (a.captured src content).map .symbol := by
  rw [findings, readLines_code hcode hregistry]
  simp only [List.isEmpty_iff, Option.getD_some]

/-- The relations of what is found in a text can always be looked up. -/
theorem exists_relations (src : Source) (content : String) :
    ∃ relations : Relations,
      (if Registry.builtin.wantsRelations src.language then
        Registry.builtin.findRelations src.language content
          ((a.findings src content).map (·.outline)) = .ok relations
      else relations = {}) ∧
      a.relations? src.language content (a.findings src content) = some relations := by
  rw [relations?_code hcode hregistry]
  split
  next hwants =>
    have hfound : (∃ ss : List Symbol, a.findings src content = ss.map .symbol) ∨
        ∃ file lines, a.findings src content
          = Registry.builtin.findSymbols ⟨file, src.language⟩ lines := by
      rw [findings_code hcode hregistry]
      split
      · exact .inr ⟨src.file, _, rfl⟩
      · exact .inl ⟨_, rfl⟩
    obtain ⟨relations, hrelations⟩ := Registry.findRelations_reads hwants hfound content
    exact ⟨relations, hrelations, by rw [hrelations]; rfl⟩
  next => exact ⟨{}, rfl, rfl⟩

/-- A file in a language with a grammar and a query is parsed to all that is found in it. -/
theorem parseFile_code {path language content : String} {bytes : ByteArray}
    (hcontent : Text.decode? bytes = some content)
    (hlanguage : Dialect.code.languageOf? (.parse path) = some language)
    (hsupports : a.supports language = true) :
    ∃ relations : Relations,
      (if Registry.builtin.wantsRelations language then
        Registry.builtin.findRelations language content
          ((a.findings ⟨path, language⟩ content).map (·.outline)) = .ok relations
      else relations = {}) ∧
      a.parseFile path (some bytes)
        = (a.findings ⟨path, language⟩ content).map fun f => ⟨f, some (relations.of f.name)⟩ := by
  obtain ⟨relations, hwanted, hrelations⟩ :=
    exists_relations hcode hregistry ⟨path, language⟩ content
  refine ⟨relations, hwanted, ?_⟩
  have hshell : a.dialect ≠ .shell := by simp [hcode]
  rw [parseFile, if_neg hshell, Option.bind_some, hcontent, hcode, hlanguage]
  simp only [hsupports, if_true, parseText, hrelations]

end Code

/-- A file keeps what was found in it. The nodes that a query captured give their symbols in order,
and a node that gives none does not affect the others; without any captured symbol the lines are
read by the rules of their language. Everything found is returned, with its relations. -/
theorem parseFile_keeps_findings (hcode : a.dialect = .code) (hregistry : a.registry = .standard)
    {path language query content : String} {bytes : ByteArray}
    (hcontent : Text.decode? bytes = some content)
    (hlanguage : Dialect.code.languageOf? (.parse path) = some language)
    (hgrammar : language ∈ a.grammars) (hquery : a.query language = some query)
    (hne : query ≠ "") :
    let src : Source := ⟨path, language⟩
    let captured := ((a.captures src content).getD []).flatMap fun c =>
      c.nodes.filterMap fun n => n.symbol? a.hash .code .standard c.name src
    let found := if captured = [] then Registry.builtin.findSymbols src (Text.lines content)
      else captured.map .symbol
    (∀ (n : Node) (capture : String) (s : Symbol),
      n.symbol? a.hash .code .standard capture src = some s ↔
        ∃ text name kind first last, n.text? = some text ∧
          n.name? a.hash .code .standard capture language = some name ∧ name ≠ "" ∧
          Node.kind? .code .standard capture language = some kind ∧
          n.firstRow = some first ∧ n.lastRow = some last ∧
          s = { name, kind, first := first + 1, last := last + 1, snippet := text
                language, file := path, digest := some "" }) ∧
    ∃ relations : Relations,
      (if Registry.builtin.wantsRelations language then
        Registry.builtin.findRelations language content (found.map (·.outline)) = .ok relations
      else relations = {}) ∧
      a.parseFile path (some bytes) = found.map fun f => ⟨f, some (relations.of f.name)⟩ := by
  intro src captured found
  refine ⟨fun n capture s => Node.symbol?_eq_some_iff, ?_⟩
  have hsupports : a.supports language = true := by
    simp [supports, hgrammar, hquery, hne]
  have hcaptured : a.captured src content = captured := by
    rw [Analyzer.captured, hcode, hregistry]
    rfl
  have hfound : a.findings src content = found := by
    rw [findings_code hcode hregistry, hcaptured]
  have hparse := parseFile_code hcode hregistry hcontent hlanguage hsupports
  rwa [hfound] at hparse

/-- An analyzer whose query captures one good node among nodes with invalid text, without a text,
without a name and without a place. -/
def damaged : Analyzer where
  dialect := .code
  grammars := ["python"]
  query := fun _ => some "(function_definition) @definition.function"
  captures := fun _ _ => some [⟨"definition.function",
    [⟨some ⟨#[0xff]⟩, some 0, some 0⟩,
     ⟨none, some 0, some 0⟩,
     ⟨some "  ".toUTF8, some 0, some 0⟩,
     ⟨some "def run (): stop()".toUTF8, some 0, some 0⟩,
     ⟨some "def stop (): pass".toUTF8, none, none⟩]⟩]

theorem parseFile_keeps_findings_damaged :
    (damaged.parseFile "app.py" (some "def run (): stop()\n".toUTF8)).map (·.finding.name)
      = ["run"] := by
  have hcontent : Text.decode? "def run (): stop()\n".toUTF8 = some "def run (): stop()\n" := by
    decide +kernel
  have hlanguage : Dialect.code.languageOf? (.parse "app.py") = some "python" := by decide +kernel
  obtain ⟨-, relations, -, hparse⟩ :=
    parseFile_keeps_findings (a := damaged) rfl rfl hcontent hlanguage (by decide) rfl (by decide)
  rw [hparse, List.map_map]
  change List.map Finding.name _ = _
  decide +kernel

end Analyzer

end SymbolAtlas
