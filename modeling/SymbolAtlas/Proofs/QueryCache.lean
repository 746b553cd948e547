/-
  SymbolAtlas.Proofs.QueryCache: what a load of a query answers, after any writes and loads.

  The cache holds for each language what the first load that could read the language's file has read
  (`get?_after`), so all later loads answer with that text, whatever is written in between. A load
  that fails leaves the directory as it was. Two directories that look the same to one language do
  so after every step (`SameFor.step`), hence a load of one language is of no concern to another.
-/

import Mathlib.Data.List.Induction
import SymbolAtlas.Query

namespace SymbolAtlas

namespace QueryCache

variable (c : QueryCache) (language : String) (file : Option ByteArray)

/-- A load answers from the cache, or else from the file. -/
theorem load_fst : (c.load language file).1 = (c.get? language).or (Query.ofFile? file) := by
  rw [load]
  cases c.get? language with
  | some q => rfl
  | none => cases Query.ofFile? file <;> rfl

/-- A load adds what it reads for its language, unless something is there. -/
theorem get?_load (other : String) :
    (c.load language file).2.get? other
      = (c.get? other).or (if other = language then Query.ofFile? file else none) := by
  rw [load]
  cases hcached : c.get? language with
  | some q =>
      by_cases hother : other = language
      · rw [if_pos hother, hother, hcached, Option.some_or]
      · rw [if_neg hother, Option.or_none]
  | none =>
      cases Query.ofFile? file with
      | none => simp
      | some q =>
          simp only [get?, List.find?_append, Option.map_or]
          by_cases hother : other = language
          · simp [hother]
          · simp [hother, Ne.symm hother]

theorem load_snd_of_none (h : (c.load language file).1 = none) : (c.load language file).2 = c := by
  rw [load_fst, Option.or_eq_none_iff] at h
  rw [load, h.1, h.2]

end QueryCache

namespace QueryStep

/-- The language whose query a step asks for. -/
def asked? : QueryStep → Option String
  | .load language => some language
  | .write _ _ => none

/-- What a step writes at a place; `root` is the directory of queries. -/
def written? (root place : Path) : QueryStep → Option ByteArray
  | .write language bytes =>
    if root.append (Query.pathOf language) = place then some bytes else none
  | .load _ => none

end QueryStep

namespace QueryDirectory

variable {d : QueryDirectory} {s : QueryStep} {language : String}

/-! ## Steps and runs -/

/-- The directory after some steps. -/
def after (d : QueryDirectory) (steps : List QueryStep) : QueryDirectory :=
  steps.foldl (fun d s => (d.step s).2) d

theorem after_append (d : QueryDirectory) (steps more : List QueryStep) :
    d.after (steps ++ more) = (d.after steps).after more := List.foldl_append

theorem run_cons (d : QueryDirectory) (s : QueryStep) (rest : List QueryStep) :
    d.run (s :: rest) = (d.step s).1.toList ++ (d.step s).2.run rest := rfl

theorem run_append (d : QueryDirectory) (steps more : List QueryStep) :
    d.run (steps ++ more) = d.run steps ++ (d.after steps).run more := by
  induction steps generalizing d with
  | nil => rfl
  | cons s rest ih =>
      rw [List.cons_append, run_cons, run_cons, ih, List.append_assoc]
      rfl

theorem root_after (d : QueryDirectory) (steps : List QueryStep) :
    (d.after steps).root = d.root := by
  induction steps generalizing d with
  | nil => rfl
  | cons s rest ih =>
      have hstep : (d.step s).2.root = d.root := by cases s <;> rfl
      exact (ih (d.step s).2).trans hstep

/-! ## Files -/

/-- The content of a language's file after some steps: what was written last to its place, or else
what was there before. -/
def contentAfter (d : QueryDirectory) (steps : List QueryStep) (language : String) :
    Option ByteArray :=
  (steps.reverse.findSome? (QueryStep.written? d.root (d.place language))).or (d.file? language)

theorem file?_step (d : QueryDirectory) (s : QueryStep) (language : String) :
    (d.step s).2.file? language
      = (s.written? d.root (d.place language)).or (d.file? language) := by
  cases s with
  | load l => rfl
  | write l bytes =>
      have hplace : d.root.append (Query.pathOf l) = d.place l := rfl
      have hfile : (d.step (.write l bytes)).2.file? language
          = (((d.place l, bytes) :: d.files).find? (·.1 == d.place language)).map (·.2) := rfl
      rw [hfile, QueryStep.written?, hplace]
      by_cases hsame : d.place l = d.place language
      · rw [if_pos hsame, Option.some_or, List.find?_cons_of_pos (by simpa using hsame),
          Option.map_some]
      · rw [if_neg hsame, Option.none_or, List.find?_cons_of_neg (by simpa using hsame), file?]

theorem file?_after (d : QueryDirectory) (steps : List QueryStep) (language : String) :
    (d.after steps).file? language = d.contentAfter steps language := by
  induction steps using List.reverseRecOn with
  | nil => rfl
  | append_singleton steps s ih =>
      have hlast : d.after (steps ++ [s]) = ((d.after steps).step s).2 := after_append d steps [s]
      rw [hlast, file?_step, ih, place, root_after, contentAfter, contentAfter,
        List.reverse_concat, List.findSome?_cons, ← place]
      cases s.written? d.root (d.place language) <;> rfl

/-! ## The cache -/

/-- What each step finds in the file of a language: the query, if the step is a load of the language
and the file can be read as it stands then. -/
def readings (d : QueryDirectory) (steps : List QueryStep) (language : String) :
    List (Option String) :=
  (List.range steps.length).map fun i =>
    if (steps[i]?).bind QueryStep.asked? = some language then
      Query.ofFile? (d.contentAfter (steps.take i) language)
    else none

/-- What is found by the first load of a language that finds a readable file. -/
def firstReading? (d : QueryDirectory) (steps : List QueryStep) (language : String) :
    Option String :=
  (d.readings steps language).findSome? id

theorem readings_concat (d : QueryDirectory) (steps : List QueryStep) (s : QueryStep)
    (language : String) :
    d.readings (steps ++ [s]) language
      = d.readings steps language ++
          [if s.asked? = some language then Query.ofFile? (d.contentAfter steps language)
           else none] := by
  rw [readings, List.length_append, List.length_singleton, List.range_succ, List.map_append,
    readings]
  congr 1
  · -- the steps before the last one are the same, and so is what comes before each of them
    refine List.map_congr_left fun i hi => ?_
    have hlt : i < steps.length := List.mem_range.mp hi
    rw [List.getElem?_append_left hlt, List.take_append_of_le_length (Nat.le_of_lt hlt)]
  · simp

theorem firstReading?_concat (d : QueryDirectory) (steps : List QueryStep) (s : QueryStep)
    (language : String) :
    d.firstReading? (steps ++ [s]) language
      = (d.firstReading? steps language).or
          (if s.asked? = some language then Query.ofFile? (d.contentAfter steps language)
           else none) := by
  rw [firstReading?, readings_concat, List.findSome?_append, firstReading?]
  simp

/-- What a step leaves in the cache. -/
theorem cache_step (d : QueryDirectory) (s : QueryStep) (language : String) :
    (d.step s).2.cache.get? language
      = (d.cache.get? language).or
          (if s.asked? = some language then Query.ofFile? (d.file? language) else none) := by
  cases s with
  | write l bytes => exact (Option.or_none).symm
  | load l =>
      have hload : ((d.step (.load l)).2.cache).get? language = _ :=
        d.cache.get?_load l (d.file? l) language
      rw [hload]
      by_cases hl : language = l
      · simp [hl, QueryStep.asked?]
      · simp [hl, Ne.symm hl, QueryStep.asked?]

theorem get?_after (d : QueryDirectory) (steps : List QueryStep) (language : String) :
    (d.after steps).cache.get? language
      = (d.cache.get? language).or (d.firstReading? steps language) := by
  induction steps using List.reverseRecOn with
  | nil => exact (Option.or_none).symm
  | append_singleton steps s ih =>
      have hlast : d.after (steps ++ [s]) = ((d.after steps).step s).2 := after_append d steps [s]
      rw [hlast, cache_step, ih, file?_after, firstReading?_concat, Option.or_assoc]

/-! ## Answers -/

theorem step_load (d : QueryDirectory) (language : String) :
    (d.step (.load language)).1
      = some ((d.cache.get? language).or (Query.ofFile? (d.file? language))) :=
  congrArg some (d.cache.load_fst language (d.file? language))

theorem step_load_of_none (h : (d.step (.load language)).1 = some none) :
    (d.step (.load language)).2 = d := by
  have hcache := d.cache.load_snd_of_none language (d.file? language) (Option.some.inj h)
  exact congrArg (fun cache => { d with cache }) hcache

/-- The answers to the loads of one language, in order. -/
def answersTo (d : QueryDirectory) (language : String) (steps : List QueryStep) :
    List (Option String) :=
  (((steps.filterMap QueryStep.asked?).zip (d.run steps)).filter (·.1 == language)).map (·.2)

theorem answersTo_cons (d : QueryDirectory) (language : String) (s : QueryStep)
    (rest : List QueryStep) :
    d.answersTo language (s :: rest)
      = (if s.asked? = some language then (d.step s).1.toList else [])
        ++ (d.step s).2.answersTo language rest := by
  cases s with
  | write l bytes => rfl
  | load l =>
      rw [answersTo, run_cons, List.filterMap_cons, step_load]
      by_cases hl : l = language
      · simp [QueryStep.asked?, hl, answersTo]
      · simp [QueryStep.asked?, hl, answersTo]

theorem answersTo_append (d : QueryDirectory) (language : String) (steps more : List QueryStep) :
    d.answersTo language (steps ++ more)
      = d.answersTo language steps ++ (d.after steps).answersTo language more := by
  induction steps generalizing d with
  | nil => rfl
  | cons s rest ih =>
      rw [List.cons_append, answersTo_cons, answersTo_cons, ih, List.append_assoc]
      rfl

/-- Whether two directories look the same to one language: they hold the same files and have read
the same query for it. -/
structure SameFor (language : String) (d d' : QueryDirectory) : Prop where
  root : d.root = d'.root
  files : d.files = d'.files
  cached : d.cache.get? language = d'.cache.get? language

namespace SameFor

variable {d' : QueryDirectory}

theorem file? (h : SameFor language d d') (other : String) : d.file? other = d'.file? other := by
  rw [QueryDirectory.file?, QueryDirectory.file?, place, place, h.root, h.files]

/-- Every step keeps what looks the same. -/
theorem step (h : SameFor language d d') (s : QueryStep) :
    SameFor language (d.step s).2 (d'.step s).2 := by
  refine ⟨?_, ?_, ?_⟩
  · cases s <;> exact h.root
  · cases s with
    | load l => exact h.files
    | write l bytes =>
        have hplace : d.place l = d'.place l := by rw [place, place, h.root]
        exact congrArg₂ List.cons (congrArg (·, bytes) hplace) h.files
  · rw [cache_step, cache_step, h.cached, h.file?]

theorem answer (h : SameFor language d d') {s : QueryStep} (hs : s.asked? = some language) :
    (d.step s).1 = (d'.step s).1 := by
  cases s with
  | write l bytes => exact absurd hs (by simp [QueryStep.asked?])
  | load l =>
      obtain rfl : l = language := Option.some.inj hs
      rw [step_load, step_load, h.cached, h.file?]

theorem answersTo (h : SameFor language d d') (steps : List QueryStep) :
    d.answersTo language steps = d'.answersTo language steps := by
  induction steps generalizing d d' with
  | nil => rfl
  | cons s rest ih =>
      rw [answersTo_cons, answersTo_cons, ih (h.step s)]
      congr 1
      split
      next hs => rw [h.answer hs]
      next => rfl

end SameFor

/-- A load changes nothing for another language. -/
theorem sameFor_load {other : String} (h : other ≠ language) :
    SameFor other (d.step (.load language)).2 d := by
  refine ⟨rfl, rfl, ?_⟩
  rw [cache_step, QueryStep.asked?, if_neg (by simpa using Ne.symm h), Option.or_none]

/-- For every directory that nothing has been read from, all writes and all loads: a load answers
with the query that the language's file held at the first load of the language that found it
readable, and with nothing if there was none up to this load. A load without an answer leaves the
directory and the cache as they were, a load does not change the answers to loads of other
languages, and what is in the cache stays there. -/
theorem queries_read_once (root : Path) (files : List (Path × ByteArray))
    (before later : List QueryStep) (language : String) :
    let d : QueryDirectory := { root, files }
    let upTo := before ++ [QueryStep.load language]
    d.run (before ++ QueryStep.load language :: later)
        = d.run before ++ d.firstReading? upTo language :: (d.after upTo).run later ∧
      (d.firstReading? upTo language = none → d.after upTo = d.after before) ∧
      (∀ other, other ≠ language →
        d.answersTo other (before ++ QueryStep.load language :: later)
          = d.answersTo other (before ++ later)) ∧
      ∀ other q, (d.after before).cache.get? other = some q →
        (d.after (before ++ later)).cache.get? other = some q := by
  intro d upTo
  have hupTo : d.after upTo = ((d.after before).step (.load language)).2 :=
    after_append d before [QueryStep.load language]
  have hanswer : ((d.after before).step (.load language)).1
      = some (d.firstReading? upTo language) := by
    rw [step_load, get?_after, file?_after, firstReading?_concat]
    simp [d, QueryCache.get?, QueryStep.asked?]
  refine ⟨?_, fun hnone => ?_, fun other hother => ?_, fun other q hq => ?_⟩
  · rw [run_append, run_cons, hanswer, hupTo]
    rfl
  · rw [hnone] at hanswer
    rw [hupTo, step_load_of_none hanswer]
  · -- a question for one language neither answers nor fills the others
    have hskip : QueryStep.asked? (.load language) ≠ some other := by
      simpa [QueryStep.asked?] using Ne.symm hother
    rw [answersTo_append, answersTo_append, answersTo_cons, if_neg hskip, List.nil_append,
      (sameFor_load hother).answersTo]
  · rw [after_append, get?_after, hq, Option.some_or]

/-- A file that cannot be read, then holds nothing but a blank, then a query. The blank is what is
read first, and the load of another language sees nothing of it. -/
theorem queries_read_once_blank :
    let d : QueryDirectory := {}
    let load := QueryStep.load
    let unreadable := [QueryStep.write "go" ⟨#[0xff]⟩]
    let steps := unreadable ++ [load "go", QueryStep.write "./go" "\n".toUTF8, load "go",
      QueryStep.write "go" "(a)".toUTF8, QueryStep.write "zig" "(b)".toUTF8]
    (d.firstReading? (unreadable ++ [load "go"]) "go" = none ∧
      d.after (unreadable ++ [load "go"]) = d.after unreadable) ∧
    (d.firstReading? (steps ++ [load "go"]) "go" = some "" ∧
      d.run (steps ++ [load "go", load "zig"]) = [none, some "", some "", some "(b)"]) ∧
    ("zig" ≠ "go" ∧ d.answersTo "zig" (steps ++ [load "go", load "zig"])
      = d.answersTo "zig" (steps ++ [load "zig"])) ∧
    ((d.after steps).cache.get? "go" = some "" ∧
      (d.after (steps ++ [load "zig"])).cache.get? "go" = some "") := by
  intro d load unreadable steps
  have hfails := queries_read_once d.root [] unreadable [] "go"
  have hreads := queries_read_once d.root [] steps [load "zig"] "go"
  have hfacts : d.firstReading? (unreadable ++ [load "go"]) "go" = none ∧
      d.firstReading? (steps ++ [load "go"]) "go" = some "" ∧ d.run steps = [none, some ""] ∧
      (d.after (steps ++ [load "go"])).run [load "zig"] = [some "(b)"] ∧
      (d.after steps).cache.get? "go" = some "" := by
    decide +kernel
  obtain ⟨hnone, hblank, hrun, hrest, hcached⟩ := hfacts
  refine ⟨⟨hnone, hfails.2.1 hnone⟩, ⟨hblank, ?_⟩, ⟨by decide, hreads.2.2.1 "zig" (by decide)⟩,
    hcached, hreads.2.2.2 "go" "" hcached⟩
  refine hreads.1.trans ?_
  rw [hblank, hrun, hrest]
  rfl

end QueryDirectory

end SymbolAtlas
