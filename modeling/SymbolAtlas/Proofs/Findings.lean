/-
  SymbolAtlas.Proofs.Findings: what is found in a file is all of one sort.

  A dialect gives symbols or mentions and never both, and every symbol names the file that it was
  found in (`Analyzer.parseFile_oneSort`). An indexer relies on both: symbols that named another
  file would be stored there, and a mention after a symbol would stop the work half way.
-/

import SymbolAtlas.Indexer.Basic

namespace SymbolAtlas

/-- Findings that are all symbols of a file, or all mentions. -/
def OneSort (file : String) (found : List Finding) : Prop :=
  (∃ ss : List Symbol, found = ss.map .symbol ∧ ∀ s ∈ ss, s.file = file) ∨
    ∃ ms : List Mention, found = ms.map .mention

namespace OneSort

theorem ofSymbols {file : String} {ss : List Symbol} (h : ∀ s ∈ ss, s.file = file) :
    OneSort file (ss.map .symbol) := Or.inl ⟨ss, rfl, h⟩

theorem ofMentions (file : String) (ms : List Mention) : OneSort file (ms.map .mention) :=
  Or.inr ⟨ms, rfl⟩

theorem nil (file : String) : OneSort file [] := ofMentions file []

end OneSort

/-! ## Attributes that are read -/

/-- What is read after something else is there when both are. -/
theorem Outline.bind_eq_ok {α β : Type} {r : Except MissingField α}
    {f : α → Except MissingField β} {b : β} :
    (r >>= f) = .ok b ↔ ∃ a, r = .ok a ∧ f a = .ok b := by
  cases r with
  | error e => simp [Bind.bind, Except.bind]
  | ok a => simp [Bind.bind, Except.bind]

/-! ## Lines -/

/-- A number is that of one line. -/
theorem line_eq_of_mem_zipIdx {lines : List String} {k n : Nat} {line line' : String}
    (h : (line, n) ∈ lines.zipIdx k) (h' : (line', n) ∈ lines.zipIdx k) : line = line' := by
  rw [(List.mem_zipIdx h).2.2, (List.mem_zipIdx h').2.2]

/-- What holds of everything that is read on a line holds of everything that is read. -/
theorem forall_mem_scanLines {α : Type} {P : α → Prop} {read : Nat → String → List α}
    (h : ∀ n line, ∀ a ∈ read n line, P a) (lines : List String) :
    ∀ a ∈ scanLines read lines, P a := by
  intro a ha
  obtain ⟨l, -, ha⟩ := List.mem_flatMap.mp ha
  exact h l.2 l.1 a ha

/-- What is read on a line comes before what is read on later ones. -/
theorem pairwise_scanLines {α : Type} {R : α → α → Prop} {read : Nat → String → List α}
    (hhere : ∀ n line, (read n line).Pairwise R)
    (hlater : ∀ m n line line', m < n → ∀ a ∈ read m line, ∀ b ∈ read n line', R a b)
    (lines : List String) : (scanLines read lines).Pairwise R := by
  rw [scanLines, List.pairwise_flatMap]
  refine ⟨fun l _ => hhere l.2 l.1, ?_⟩
  have hnumbers : ((lines.zipIdx 1).map Prod.snd).Pairwise (· < ·) := by
    rw [List.zipIdx_map_snd]
    exact List.pairwise_lt_range'
  exact (List.pairwise_map.mp hnumbers).imp fun hlt => hlater _ _ _ _ hlt

/-- What is read once on a line is in order there. -/
theorem pairwise_toList_map {α β : Type} {R : β → β → Prop} (o : Option α) (f : α → β) :
    (o.toList.map f).Pairwise R := by
  cases o with
  | none => exact .nil
  | some a => exact List.pairwise_singleton R (f a)

@[simp] theorem Source.symbolOn_file (src : Source) (line : Nat) (name kind snippet : String) :
    (src.symbolOn line name kind snippet).file = src.file := rfl

/-- A symbol that is made of something is in the file in which all of them are made. -/
theorem file_of_mem_map {α : Type} {file : String} {make : α → Symbol} {l : List α} {s : Symbol}
    (hs : s ∈ l.map make) (hmake : ∀ a, (make a).file = file) : s.file = file := by
  obtain ⟨a, -, rfl⟩ := List.mem_map.mp hs
  exact hmake a

theorem symbolsByRules_file (rules : List SymbolRule) (src : Source) (lines : List String) :
    ∀ s ∈ symbolsByRules rules src lines, s.file = src.file := by
  intro s hs
  obtain ⟨rule, -, hs⟩ := List.mem_flatMap.mp hs
  refine forall_mem_scanLines (P := fun s => s.file = src.file) (fun _ _ _ h => ?_) lines s hs
  exact file_of_mem_map h fun _ => rfl

theorem LineRules.findSymbols_oneSort (rules : LineRules) (src : Source) (lines : List String) :
    OneSort src.file (rules.findSymbols src lines) :=
  .ofSymbols (symbolsByRules_file rules.symbols src lines)

/-! ## Data formats -/

namespace JsonText

theorem opening_file (kind bracket : String) (src : Source) (n : Nat) (line : String) :
    ∀ s ∈ opening kind bracket src n line, s.file = src.file := by
  intro s hs
  simp only [opening] at hs
  split at hs
  · rw [List.mem_singleton] at hs
    rw [hs, Source.symbolOn_file]
  · exact absurd hs List.not_mem_nil

theorem findSymbols_oneSort (src : Source) (lines : List String) :
    OneSort src.file (findSymbols src lines) := by
  apply OneSort.ofSymbols
  intro s hs
  obtain ⟨read, hread, hs⟩ := List.mem_flatMap.mp hs
  refine forall_mem_scanLines (P := fun s => s.file = src.file) ?_ lines s hs
  simp only [List.mem_cons, List.not_mem_nil, or_false] at hread
  rcases hread with rfl | rfl | rfl | rfl | rfl | rfl | rfl
  · exact opening_file _ _ src
  · exact opening_file _ _ src
  -- keys and values are made of what matches
  all_goals exact fun _ _ _ h => file_of_mem_map h fun _ => rfl

end JsonText

/-! ## Markdown -/

namespace Markdown

theorem underlined_file (src : Source) (numbered : List (String × Nat)) :
    ∀ s ∈ underlined src numbered, s.file = src.file := by
  fun_induction underlined src numbered with
  | case1 line n next m rest ih =>
      intro s hs
      rcases List.mem_append.mp hs with hs | hs
      · exact file_of_mem_map hs fun _ => rfl
      · exact ih s hs
  | case2 numbered _ =>
      intro s hs
      exact absurd hs List.not_mem_nil

theorem findSymbols_oneSort (src : Source) (lines : List String) :
    OneSort src.file (findSymbols src lines) := by
  apply OneSort.ofSymbols
  intro s hs
  simp only [List.mem_append] at hs
  rcases hs with (((((((hs | hs) | hs) | hs) | hs) | hs) | hs) | hs) | hs
  rotate_left
  · exact underlined_file src _ s hs
  · exact file_of_mem_map hs fun _ => rfl
  all_goals
    refine forall_mem_scanLines (P := fun s => s.file = src.file) (fun _ _ _ h => ?_) lines s hs
    exact file_of_mem_map h fun _ => rfl

end Markdown

/-! ## Files -/

/-- A dialect finds symbols of the file that it reads, or mentions. -/
theorem Dialect.findSymbols_oneSort (d : Dialect) (src : Source) (lines : List String) :
    OneSort src.file (d.findSymbols src lines) := by
  unfold Dialect.findSymbols
  split
  next rules _ => exact rules.findSymbols_oneSort src lines
  next =>
    split
    · exact .ofMentions src.file _
    · exact .ofMentions src.file _
    · exact JsonText.findSymbols_oneSort src lines
    · exact Markdown.findSymbols_oneSort src lines
    · exact .ofSymbols (symbolsByRules_file _ src lines)
    · exact .ofSymbols (symbolsByRules_file _ src lines)
    · exact .nil src.file

/-- When a node gives a symbol, and which: its text can be read, it has a name and a kind, and its
place is known. -/
theorem Node.symbol?_eq_some_iff {n : Node} {hash : TextHash} {d : Dialect} {registry : Registry}
    {capture : String} {src : Source} {s : Symbol} :
    n.symbol? hash d registry capture src = some s ↔
      ∃ text name kind first last, n.text? = some text ∧
        n.name? hash d registry capture src.language = some name ∧ name ≠ "" ∧
        Node.kind? d registry capture src.language = some kind ∧
        n.firstRow = some first ∧ n.lastRow = some last ∧
        s = { name, kind, first := first + 1, last := last + 1, snippet := text
              language := src.language, file := src.file, digest := some "" } := by
  constructor
  · intro h
    obtain ⟨name, hname, h⟩ := Option.bind_eq_some_iff.mp h
    split at h
    · exact absurd h (by simp)
    next hne =>
      obtain ⟨kind, hkind, h⟩ := Option.bind_eq_some_iff.mp h
      obtain ⟨first, hfirst, h⟩ := Option.bind_eq_some_iff.mp h
      obtain ⟨last, hlast, h⟩ := Option.bind_eq_some_iff.mp h
      obtain ⟨text, htext, h⟩ := Option.bind_eq_some_iff.mp h
      exact ⟨text, name, kind, first, last, htext, hname, hne, hkind, hfirst, hlast,
        (Option.some.inj h).symm⟩
  · rintro ⟨text, name, kind, first, last, htext, hname, hne, hkind, hfirst, hlast, rfl⟩
    rw [symbol?]
    simp [hname, hne, hkind, hfirst, hlast, htext]

theorem Node.symbol?_file {n : Node} {hash : TextHash} {d : Dialect} {registry : Registry}
    {capture : String} {src : Source} {s : Symbol}
    (h : n.symbol? hash d registry capture src = some s) :
    s.file = src.file := by
  obtain ⟨text, name, kind, first, last, -, -, -, -, -, -, rfl⟩ := symbol?_eq_some_iff.mp h
  rfl

theorem Capture.symbols_file (captures : List Capture) (hash : TextHash) (d : Dialect)
    (registry : Registry) (src : Source) :
    ∀ s ∈ Capture.symbols captures hash d registry src, s.file = src.file := by
  intro s hs
  obtain ⟨c, -, hs⟩ := List.mem_flatMap.mp hs
  obtain ⟨n, -, hs⟩ := List.mem_filterMap.mp hs
  exact Node.symbol?_file hs

namespace Analyzer

theorem readLines_oneSort (a : Analyzer) (src : Source) (lines : List String) :
    OneSort src.file ((a.readLines src lines).getD []) := by
  rw [readLines]
  split
  next d _ =>
    split
    · exact d.findSymbols_oneSort src lines
    · exact .nil src.file
  next => exact Declarations.generic.findSymbols_oneSort src lines

theorem findings_oneSort (a : Analyzer) (src : Source) (content : String) :
    OneSort src.file (a.findings src content) := by
  simp only [findings]
  split
  · exact a.readLines_oneSort src _
  · exact .ofSymbols (Capture.symbols_file _ _ _ _ src)

theorem parseText_oneSort (a : Analyzer) (src : Source) (content : String) :
    OneSort src.file ((a.parseText src content).map (·.finding)) := by
  simp only [parseText]
  split
  · rw [List.map_map, Function.comp_def, List.map_id']
    exact a.findings_oneSort src content
  · exact .nil src.file

/-- The findings of a file are symbols of that file, or mentions. -/
theorem parseFile_oneSort (a : Analyzer) (path : String) (file : Option ByteArray) :
    OneSort path ((a.parseFile path file).map (·.finding)) := by
  rw [parseFile]
  split
  · rw [List.map_map, Function.comp_def, List.map_id']
    exact .ofMentions path _
  · split
    next content language _ _ =>
      split
      · exact a.parseText_oneSort ⟨path, language⟩ content
      · exact .nil path
    next => exact .nil path

end Analyzer

namespace Indexer

/-- An indexer whose findings in a file are symbols of that file, or mentions. -/
def Lawful (x : Indexer) : Prop :=
  ∀ path file, OneSort path ((x.parse path file).map (·.finding))

theorem ofAnalyzer_lawful (a : Analyzer) (model : Option Model) : (ofAnalyzer a model).Lawful :=
  a.parseFile_oneSort

end Indexer

end SymbolAtlas
