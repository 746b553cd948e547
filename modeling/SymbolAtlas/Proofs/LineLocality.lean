/-
  SymbolAtlas.Proofs.LineLocality: symbols are found line by line.

  A dialect that knows no blocks goes over the lines several times, once for each sort of symbol.
  What it finds on a line depends on the line and on its number only, and the number moves with the
  line (`LineReader`). So a file may be cut at any line: the findings are those of both parts, the
  later ones moved down, though in another order where there are several passes.
-/

import Mathlib.Data.List.Induction
import Mathlib.Data.List.Perm.Basic
import SymbolAtlas.Proofs.DefinitionNames
import SymbolAtlas.Proofs.Path

namespace SymbolAtlas

/-! ## Findings further down -/

namespace Finding

/-- The same finding `k` lines further down. -/
def shift (k : Nat) : Finding → Finding
  | .symbol s => .symbol { s with first := s.first + k, last := s.last + k }
  | .mention m => .mention { m with line := m.line + k }

/-- The numbers of lines that a finding reports. -/
def lineNumbers : Finding → List Int
  | .symbol s => [s.first, s.last]
  | .mention m => [(m.line : Int)]

end Finding

/-! ## Readers of lines -/

/-- Reading a line with any number gives the same, but for the number, which is the only one that is
reported. -/
structure LineReader (read : Nat → String → List Finding) : Prop where
  shift : ∀ n k line, read (n + k) line = (read n line).map (·.shift k)
  number : ∀ n line, ∀ f ∈ read n line, ∀ i ∈ f.lineNumbers, i = n

theorem scanLines_append {α : Type} (read : Nat → String → List α) (l₁ l₂ : List String) :
    scanLines read (l₁ ++ l₂) =
      scanLines read l₁ ++ scanLines (fun n => read (n + l₁.length)) l₂ := by
  have hmoved : l₂.zipIdx (1 + l₁.length) =
      (l₂.zipIdx 1).map fun l => (l.1, l.2 + l₁.length) := by
    rw [Nat.add_comm, List.map_snd_add_zipIdx_eq_zipIdx.symm]
    rfl
  rw [scanLines, List.zipIdx_append, List.flatMap_append, hmoved, List.flatMap_map]
  rfl

theorem map_scanLines {α β : Type} (f : α → β) (read : Nat → String → List α)
    (lines : List String) :
    (scanLines read lines).map f = scanLines (fun n line => (read n line).map f) lines := by
  rw [scanLines, List.map_flatMap]
  rfl

namespace LineReader

variable {read : Nat → String → List Finding}

/-- One pass over two parts: the second part is read as if it stood alone, and moved. -/
theorem scanLines_append (h : LineReader read) (l₁ l₂ : List String) :
    scanLines read (l₁ ++ l₂) =
      scanLines read l₁ ++ (scanLines read l₂).map (·.shift l₁.length) := by
  have hmoved : (fun n => read (n + l₁.length)) = fun n line =>
      (read n line).map (·.shift l₁.length) := by
    funext n line
    exact h.shift n l₁.length line
  rw [SymbolAtlas.scanLines_append, map_scanLines, hmoved]

theorem lineNumbers_le (h : LineReader read) {lines : List String} {f : Finding}
    (hf : f ∈ scanLines read lines) {i : Int} (hi : i ∈ f.lineNumbers) :
    1 ≤ i ∧ i ≤ lines.length := by
  obtain ⟨⟨line, n⟩, hl, hf⟩ := List.mem_flatMap.mp hf
  obtain ⟨hle, hlt, -⟩ := List.mem_zipIdx hl
  rw [h.number n line f hf i hi]
  omega

/-- Rules for symbols give one symbol on a line, with the number of the line. -/
theorem ofRule (rule : SymbolRule) (src : Source) :
    LineReader fun n line => (rule.onLine src n line).map .symbol where
  shift n k line := by
    simp only [SymbolRule.onLine, List.map_map]
    rfl
  number n line f hf i hi := by
    simp only [SymbolRule.onLine, List.map_map, List.mem_map] at hf
    obtain ⟨name, -, rfl⟩ := hf
    simpa [Source.symbolOn, Finding.lineNumbers] using hi

/-- Mentions that take their line from its number. -/
theorem ofMentions (read : Nat → String → List Mention)
    (h : ∀ n k line, read (n + k) line = (read n line).map fun m => { m with line := m.line + k })
    (hnumber : ∀ n line, ∀ m ∈ read n line, m.line = n) :
    LineReader fun n line => (read n line).map .mention where
  shift n k line := by
    simp only [h, List.map_map]
    rfl
  number n line f hf i hi := by
    obtain ⟨m, hm, rfl⟩ := List.mem_map.mp hf
    rw [Finding.lineNumbers, List.mem_singleton, hnumber n line m hm] at hi
    exact hi

end LineReader

/-! ## Several passes -/

/-- Whether findings are those of passes over the lines, one after the other. -/
def ByLines (find : List String → List Finding) : Prop :=
  ∃ reads : List (Nat → String → List Finding), (∀ read ∈ reads, LineReader read) ∧
    ∀ lines, find lines = reads.flatMap fun read => scanLines read lines

namespace ByLines

variable {find : List String → List Finding}

theorem ofRules (rules : List SymbolRule) (src : Source) :
    ByLines fun lines => (symbolsByRules rules src lines).map .symbol := by
  refine ⟨rules.map fun rule n line => (rule.onLine src n line).map .symbol, ?_, ?_⟩
  · intro read hread
    obtain ⟨rule, -, rfl⟩ := List.mem_map.mp hread
    exact .ofRule rule src
  · intro lines
    simp only [symbolsByRules, List.map_flatMap, List.flatMap_map, map_scanLines]

/-- Each pass keeps the parts in their order, and the passes of both parts are collected. -/
theorem perm_append (h : ByLines find) (l₁ l₂ : List String) :
    (find (l₁ ++ l₂)).Perm (find l₁ ++ (find l₂).map (·.shift l₁.length)) := by
  obtain ⟨reads, hreads, hfind⟩ := h
  have hpass : reads.flatMap (scanLines · (l₁ ++ l₂)) = reads.flatMap fun read =>
      scanLines read l₁ ++ (scanLines read l₂).map (·.shift l₁.length) :=
    List.flatMap_congr fun read hread => (hreads read hread).scanLines_append l₁ l₂
  rw [hfind, hfind, hfind, hpass, List.map_flatMap]
  exact (List.flatMap_append_perm _ _ _).symm

theorem lineNumbers_le (h : ByLines find) {lines : List String} {f : Finding}
    (hf : f ∈ find lines) {i : Int} (hi : i ∈ f.lineNumbers) : 1 ≤ i ∧ i ≤ lines.length := by
  obtain ⟨reads, hreads, hfind⟩ := h
  rw [hfind] at hf
  obtain ⟨read, hread, hf⟩ := List.mem_flatMap.mp hf
  exact (hreads read hread).lineNumbers_le hf hi

theorem nil_eq (h : ByLines find) : find [] = [] := by
  obtain ⟨reads, -, hfind⟩ := h
  rw [hfind]
  exact List.flatMap_eq_nil_iff.mpr fun _ _ => rfl

/-- The findings of lines are those of each line alone. -/
theorem perm_lines (h : ByLines find) (lines : List String) :
    (find lines).Perm (lines.zipIdx.flatMap fun l => (find [l.1]).map (·.shift l.2)) := by
  -- the last line is split off, so that the numbers of those before it stay
  induction lines using List.reverseRecOn with
  | nil => rw [h.nil_eq]; exact .nil
  | append_singleton lines line ih =>
      rw [List.zipIdx_append, List.flatMap_append, List.zipIdx_singleton, List.flatMap_singleton,
        Nat.zero_add]
      exact (h.perm_append lines [line]).trans (ih.append_right _)

end ByLines

/-! ## Cutting a text -/

namespace Text

theorem splitChar_ne_nil (sep : Char) (cs : List Char) : splitChar sep cs ≠ [] := by
  cases cs with
  | nil => exact List.cons_ne_nil _ _
  | cons c rest =>
      rw [splitChar]
      split
      · exact List.cons_ne_nil _ _
      · split
        · exact List.cons_ne_nil _ _
        · exact List.cons_ne_nil _ _

theorem splitChar_append_sep (sep : Char) (cs rest : List Char) :
    splitChar sep (cs ++ sep :: rest) = splitChar sep cs ++ splitChar sep rest := by
  induction cs with
  | nil => simp [splitChar]
  | cons c cs ih =>
      obtain ⟨piece, pieces, hpieces⟩ := List.exists_cons_of_ne_nil (splitChar_ne_nil sep cs)
      rw [List.cons_append, splitChar, splitChar, ih, hpieces]
      split
      · rfl
      · rfl

/-- A text that is cut at a line feed has the lines of both parts. -/
theorem lines_append (s t : String) : lines (s ++ "\n" ++ t) = lines s ++ lines t := by
  have htext : (s ++ "\n" ++ t).toList = s.toList ++ '\n' :: t.toList := by simp
  rw [lines, splitAt, htext, splitChar_append_sep, List.map_append]
  rfl

end Text

/-! ## Dialects -/

theorem Kotlin.byLines (src : Source) : ByLines (findSymbols src) := by
  refine ⟨[fun n line => (mentionsOn src n line).map .mention], ?_, ?_⟩
  · intro read hread
    obtain rfl := List.mem_singleton.mp hread
    refine .ofMentions _ ?_ ?_
    · intro n k line
      simp only [mentionsOn, List.map_flatMap, List.map_map]
      rfl
    · intro n line m hm
      obtain ⟨rule, -, hm⟩ := List.mem_flatMap.mp hm
      obtain ⟨name, -, rfl⟩ := List.mem_map.mp hm
      rfl
  · intro lines
    rw [findSymbols, map_scanLines, List.flatMap_singleton]

theorem Shell.lineReader (kind : String) (patterns : List Pattern) (src : Source) :
    LineReader fun n line => (mentionOn kind patterns src n line).map .mention := by
  refine .ofMentions _ ?_ ?_
  · intro n k line
    simp only [mentionOn, List.map_map]
    rfl
  · intro n line m hm
    obtain ⟨found, -, rfl⟩ := List.mem_map.mp hm
    rfl

theorem Shell.byLines (src : Source) : ByLines (findSymbols src) := by
  refine ⟨[("function", functionPatterns), ("variable", variablePatterns)].map
    fun sort n line => (mentionOn sort.1 sort.2 src n line).map .mention, ?_, ?_⟩
  · intro read hread
    obtain ⟨sort, -, rfl⟩ := List.mem_map.mp hread
    exact lineReader sort.1 sort.2 src
  · intro lines
    rw [findSymbols, List.map_append, map_scanLines, map_scanLines]
    simp

/-- What finds symbols line by line: a dialect without blocks, and the rules for any other
language. -/
inductive SymbolFinder : (Source → List String → List Finding) → Prop
  | ofDialect {d : Dialect}
      (h : d ∈ [.python, .swift, .javascript, .java, .cpp, .csharp, .go, .rust, .kotlin, .shell,
        .toml, .yaml]) : SymbolFinder d.findSymbols
  | generic : SymbolFinder Declarations.generic.findSymbols

namespace SymbolFinder

variable {find : Source → List String → List Finding}

theorem byLines (h : SymbolFinder find) (src : Source) : ByLines (find src) := by
  cases h with
  | generic => exact .ofRules _ src
  | @ofDialect d h =>
      cases hrules : d.lineRules? with
      | some rules =>
          rw [funext (Dialect.findSymbols_of_lineRules? hrules src)]
          exact .ofRules _ src
      | none =>
          have hd : d = .kotlin ∨ d = .shell ∨ d = .toml ∨ d = .yaml := by
            revert h hrules
            cases d <;> decide
          rcases hd with rfl | rfl | rfl | rfl
          · exact Kotlin.byLines src
          · exact Shell.byLines src
          · exact .ofRules _ src
          · exact .ofRules _ src

/-- Symbols are found line by line. The findings in lines that follow others are, but for their
order, those of both parts, the later ones moved down by the number of lines before them. So every
number of a line that is reported is one of the lines, the findings are those of each line alone,
and a text may be cut at any line feed. -/
theorem findings_line_local (h : SymbolFinder find) (src : Source) :
    (∀ l₁ l₂, (find src (l₁ ++ l₂)).Perm
      (find src l₁ ++ (find src l₂).map (·.shift l₁.length))) ∧
    (∀ lines, ∀ f ∈ find src lines, ∀ i ∈ f.lineNumbers, 1 ≤ i ∧ i ≤ lines.length) ∧
    (∀ lines, (find src lines).Perm
      (lines.zipIdx.flatMap fun l => (find src [l.1]).map (·.shift l.2))) ∧
    ∀ s t, (find src (Text.lines (s ++ "\n" ++ t))).Perm
      (find src (Text.lines s) ++
        (find src (Text.lines t)).map (·.shift (Text.lines s).length)) := by
  have hlines := h.byLines src
  refine ⟨hlines.perm_append, fun lines f hf i hi => hlines.lineNumbers_le hf hi,
    hlines.perm_lines, ?_⟩
  intro s t
  rw [Text.lines_append]
  exact hlines.perm_append _ _

/-- A script in two parts, each with a variable and a function: all functions come first, and both
of the second part are two lines further down. -/
theorem findings_line_local_script :
    ((Dialect.shell.findSymbols ⟨"run.sh", "bash"⟩
        (["x=1", "run() \x7b"] ++ ["y=2", "stop() \x7b"])).map
          fun f => (f.name, f.lineNumbers)).Perm
      [("run", [2]), ("x", [1]), ("stop", [4]), ("y", [3])] := by
  have hcut := (findings_line_local (.ofDialect (d := .shell) (by decide)) ⟨"run.sh", "bash"⟩).1
    ["x=1", "run() \x7b"] ["y=2", "stop() \x7b"]
  have hparts : (Dialect.shell.findSymbols ⟨"run.sh", "bash"⟩ ["x=1", "run() \x7b"] ++
      (Dialect.shell.findSymbols ⟨"run.sh", "bash"⟩ ["y=2", "stop() \x7b"]).map
        (·.shift 2)).map (fun f => (f.name, f.lineNumbers)) =
      [("run", [2]), ("x", [1]), ("stop", [4]), ("y", [3])] := by
    decide +kernel
  rw [← hparts]
  exact hcut.map _

end SymbolFinder

end SymbolAtlas
