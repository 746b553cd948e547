/-
  SymbolAtlas.Proofs.FileTree: what a walk finds is what its path names.

  The entries of a directory have names of their own, none of them empty, a point or two, or with a
  slash in it (`wellFormed`). In such a tree a walk meets exactly what stands at some place below
  its start (`mem_walk`), and the path that the walk gives to it is read as that very place
  (`find?_below`).
-/

import SymbolAtlas.FileTree
import SymbolAtlas.Proofs.Path

namespace SymbolAtlas

namespace FileTree

/-- Whether a text can be the name of an entry. -/
def isName (n : String) : Bool := Path.isPlain n && n != ".."

theorem isName_iff {n : String} : isName n = true ↔ Path.isPlain n = true ∧ n ≠ ".." := by
  rw [isName, Bool.and_eq_true, bne_iff_ne]

mutual

/-- Whether the entries of all directories have names, each its own. -/
def wellFormed : FileTree → Bool
  | .file _ => true
  | .dir es => wellFormedEntries es

/-- Whether entries have names, each its own, and so on below them. -/
def wellFormedEntries : List (String × FileTree) → Bool
  | [] => true
  | (n, t) :: rest =>
    isName n && !rest.any (·.1 == n) && t.wellFormed && wellFormedEntries rest

end

theorem wellFormedEntries_cons {n : String} {t : FileTree} {rest : List (String × FileTree)} :
    wellFormedEntries ((n, t) :: rest) = true ↔
      isName n = true ∧ (∀ u, (n, u) ∉ rest) ∧ t.wellFormed = true ∧
        wellFormedEntries rest = true := by
  rw [wellFormedEntries, Bool.and_eq_true, Bool.and_eq_true, Bool.and_eq_true, Bool.not_eq_true',
    List.any_eq_false, and_assoc, and_assoc]
  refine and_congr_right fun _ => and_congr_left fun _ => ?_
  constructor
  · intro h u hu
    exact h (n, u) hu (beq_self_eq_true n)
  · rintro h ⟨m, u⟩ hu heq
    exact h u (beq_iff_eq.mp heq ▸ hu)

/-! ## Entries -/

/-- The entries of a well-formed tree are well formed. -/
theorem wellFormed_entries {t : FileTree} (h : t.wellFormed = true) :
    wellFormedEntries t.entries = true := by
  cases t with
  | file b => rfl
  | dir es => exact h

theorem wellFormed_of_mem {es : List (String × FileTree)} (h : wellFormedEntries es = true)
    {n : String} {u : FileTree} (hmem : (n, u) ∈ es) : isName n = true ∧ u.wellFormed = true := by
  induction es with
  | nil => exact absurd hmem List.not_mem_nil
  | cons e rest ih =>
      obtain ⟨m, t⟩ := e
      obtain ⟨hname, -, ht, hrest⟩ := wellFormedEntries_cons.mp h
      rcases List.mem_cons.mp hmem with heq | hmem
      · obtain ⟨rfl, rfl⟩ := Prod.mk.inj heq
        exact ⟨hname, ht⟩
      · exact ih hrest hmem

/-- A name leads to the one entry that has it. -/
theorem named?_eq_some {es : List (String × FileTree)} (h : wellFormedEntries es = true)
    {n : String} {u : FileTree} : named? n es = some u ↔ (n, u) ∈ es := by
  induction es with
  | nil => simp [named?]
  | cons e rest ih =>
      obtain ⟨m, t⟩ := e
      obtain ⟨-, hother, -, hrest⟩ := wellFormedEntries_cons.mp h
      by_cases hm : m = n
      · subst hm
        have hfound : named? m ((m, t) :: rest) = some t := by simp [named?]
        rw [hfound, List.mem_cons]
        constructor
        · intro heq
          exact .inl (Option.some.inj heq ▸ rfl)
        · rintro (heq | hmem)
          · rw [(Prod.mk.inj heq).2]
          · exact absurd hmem (hother u)
      · have hskip : named? n ((m, t) :: rest) = named? n rest := by simp [named?, hm]
        rw [hskip, ih hrest, List.mem_cons]
        constructor
        · exact .inr
        · rintro (heq | hmem)
          · exact absurd (Prod.mk.inj heq).1.symm hm
          · exact hmem

/-! ## Places -/

theorem get?_append (t : FileTree) (xs ys : List String) :
    t.get? (xs ++ ys) = (t.get? xs).bind fun u => u.get? ys := by
  induction xs generalizing t with
  | nil => rw [List.nil_append, get?, Option.bind_some]
  | cons n rest ih =>
      rw [List.cons_append, get?, get?, Option.bind_assoc]
      congr 1
      funext u
      exact ih u

/-- What stands at a place of a well-formed tree is well formed, and the place is made of names. -/
theorem wellFormed_get? {t : FileTree} (h : t.wellFormed = true) {names : List String}
    {u : FileTree} (hu : t.get? names = some u) :
    u.wellFormed = true ∧ ∀ n ∈ names, isName n = true := by
  induction names generalizing t with
  | nil =>
      rw [get?] at hu
      exact ⟨Option.some.inj hu ▸ h, fun n hn => absurd hn List.not_mem_nil⟩
  | cons m rest ih =>
      rw [get?, Option.bind_eq_some_iff] at hu
      obtain ⟨v, hv, hu⟩ := hu
      have hes := wellFormed_entries h
      obtain ⟨hm, hvwf⟩ := wellFormed_of_mem hes ((named?_eq_some hes).mp hv)
      obtain ⟨huwf, hrest⟩ := ih hvwf hu
      exact ⟨huwf, List.forall_mem_cons.mpr ⟨hm, hrest⟩⟩

/-- Only a directory has something below it. -/
theorem isDir_of_get? {t u : FileTree} {names : List String} (hne : names ≠ [])
    (h : t.get? names = some u) : t.isDir = true := by
  cases t with
  | dir es => rfl
  | file b =>
      cases names with
      | nil => exact absurd rfl hne
      | cons n rest =>
          rw [get?, entries, named?, List.find?_nil] at h
          exact absurd h (by simp)

/-! ## Walks -/

mutual

/-- A walk meets what stands at the places below its start. -/
theorem mem_walk {t : FileTree} (h : t.wellFormed = true) {p q : Path} {u : FileTree} :
    (q, u) ∈ t.walk p ↔ ∃ names, names ≠ [] ∧ q = p.below names ∧ t.get? names = some u := by
  cases t with
  | file b =>
      rw [walk]
      constructor
      · exact fun hmem => absurd hmem List.not_mem_nil
      · rintro ⟨names, hne, -, hu⟩
        exact absurd (isDir_of_get? hne hu) (by simp [isDir])
  | dir es =>
      have hes : wellFormedEntries es = true := h
      rw [walk, List.mem_append, mem_walkEntries hes]
      -- one name is an entry of the directory itself, more names lead below one
      constructor
      · rintro (hmem | ⟨n, t, names, hmem, -, hq, hu⟩)
        · obtain ⟨⟨n, t⟩, hentry, heq⟩ := List.mem_map.mp hmem
          obtain ⟨rfl, rfl⟩ := Prod.mk.inj heq
          refine ⟨[n], List.cons_ne_nil n [], (p.below_singleton n).symm, ?_⟩
          rw [get?, entries, (named?_eq_some hes).mpr hentry, Option.bind_some, get?]
        · refine ⟨n :: names, List.cons_ne_nil n names, hq, ?_⟩
          rw [get?, entries, (named?_eq_some hes).mpr hmem, Option.bind_some, hu]
      · rintro ⟨names, hne, rfl, hu⟩
        cases names with
        | nil => exact absurd rfl hne
        | cons n rest =>
            rw [get?, Option.bind_eq_some_iff] at hu
            obtain ⟨v, hv, hu⟩ := hu
            have hmem := (named?_eq_some hes).mp hv
            cases rest with
            | nil =>
                rw [get?] at hu
                rw [← Option.some.inj hu]
                exact .inl (List.mem_map.mpr ⟨(n, v), hmem, rfl⟩)
            | cons m more => exact .inr ⟨n, v, m :: more, hmem, List.cons_ne_nil m more, rfl, hu⟩

theorem mem_walkEntries {es : List (String × FileTree)} (h : wellFormedEntries es = true)
    {p q : Path} {u : FileTree} :
    (q, u) ∈ walkEntries p es ↔ ∃ n t names, (n, t) ∈ es ∧ names ≠ [] ∧
      q = p.below (n :: names) ∧ t.get? names = some u := by
  match es with
  | [] =>
      rw [walkEntries]
      constructor
      · exact fun hmem => absurd hmem List.not_mem_nil
      · rintro ⟨n, t, names, hmem, -⟩
        exact absurd hmem List.not_mem_nil
  | (m, t) :: rest =>
      obtain ⟨-, -, ht, hrest⟩ := wellFormedEntries_cons.mp h
      rw [walkEntries, List.mem_append, mem_walk ht, mem_walkEntries hrest]
      constructor
      · rintro (⟨names, hne, hq, hu⟩ | ⟨n, s, names, hmem, hne, hq, hu⟩)
        · exact ⟨m, t, names, List.mem_cons_self, hne, (p.child_below m names) ▸ hq, hu⟩
        · exact ⟨n, s, names, List.mem_cons_of_mem _ hmem, hne, hq, hu⟩
      · rintro ⟨n, s, names, hmem, hne, hq, hu⟩
        rcases List.mem_cons.mp hmem with heq | hmem
        · obtain ⟨rfl, rfl⟩ := Prod.mk.inj heq
          exact .inl ⟨names, hne, (p.child_below n names).symm ▸ hq, hu⟩
        · exact .inr ⟨n, s, names, hmem, hne, hq, hu⟩

end

/-- The files below a directory are the files at the places below it. -/
theorem mem_filesBelow {t : FileTree} (h : t.wellFormed = true) {p q : Path} {b : ByteArray} :
    (q, b) ∈ t.filesBelow p ↔
      ∃ names, names ≠ [] ∧ q = p.below names ∧ t.get? names = some (.file b) := by
  have hbytes : ∀ u : FileTree, u.bytes? = some b ↔ u = .file b := by
    intro u
    cases u <;> simp [bytes?]
  rw [filesBelow, List.mem_filterMap]
  constructor
  · rintro ⟨⟨r, u⟩, hmem, hval⟩
    obtain ⟨c, hc, heq⟩ := Option.map_eq_some_iff.mp hval
    obtain ⟨rfl, rfl⟩ := Prod.mk.inj heq
    rw [(hbytes u).mp hc] at hmem
    exact (mem_walk h).mp hmem
  · intro hnames
    exact ⟨(q, .file b), (mem_walk h).mpr hnames, by simp [bytes?]⟩

/-! ## A walk meets nothing twice -/

theorem nodup_names {es : List (String × FileTree)} (h : wellFormedEntries es = true) :
    (es.map (·.1)).Nodup := by
  induction es with
  | nil => exact List.nodup_nil
  | cons e rest ih =>
      obtain ⟨n, t⟩ := e
      obtain ⟨-, hother, -, hrest⟩ := wellFormedEntries_cons.mp h
      refine List.nodup_cons.mpr ⟨?_, ih hrest⟩
      intro hmem
      obtain ⟨⟨m, u⟩, hu, rfl⟩ := List.mem_map.mp hmem
      exact hother u hu

mutual

theorem nodup_walk {t : FileTree} (h : t.wellFormed = true) (p : Path) :
    ((t.walk p).map (·.1)).Nodup := by
  cases t with
  | file b => exact List.nodup_nil
  | dir es =>
      have hes : wellFormedEntries es = true := h
      have hchildren : (es.map fun e => p.child e.1).Nodup := by
        refine List.pairwise_map.mpr ((List.pairwise_map.mp (nodup_names hes)).imp ?_)
        intro e e' hne heq
        rw [← p.below_singleton e.1, ← p.below_singleton e'.1] at heq
        exact hne (List.cons.inj (p.below_injective heq)).1
      rw [walk, List.map_append, List.map_map, List.nodup_append]
      refine ⟨hchildren, nodup_walkEntries hes p, ?_⟩
      -- the entries are one name below, and what lies below them is two or more
      rintro q hq q' hq' rfl
      obtain ⟨e, -, rfl⟩ := List.mem_map.mp hq
      obtain ⟨⟨q, u⟩, hu, hpath⟩ := List.mem_map.mp hq'
      obtain ⟨n, t, names, -, hne, rfl, -⟩ := (mem_walkEntries hes).mp hu
      have heq : p.below (n :: names) = p.below [e.1] := hpath.trans (p.below_singleton e.1).symm
      exact hne (List.cons.inj (p.below_injective heq)).2

theorem nodup_walkEntries {es : List (String × FileTree)} (h : wellFormedEntries es = true)
    (p : Path) : ((walkEntries p es).map (·.1)).Nodup := by
  match es with
  | [] => exact List.nodup_nil
  | (m, t) :: rest =>
      obtain ⟨-, hother, ht, hrest⟩ := wellFormedEntries_cons.mp h
      rw [walkEntries, List.map_append, List.nodup_append]
      refine ⟨nodup_walk ht (p.child m), nodup_walkEntries hrest p, ?_⟩
      rintro q hq q' hq' rfl
      obtain ⟨⟨q, u⟩, hu, rfl⟩ := List.mem_map.mp hq
      obtain ⟨⟨q', u'⟩, hu', hpath⟩ := List.mem_map.mp hq'
      obtain ⟨names, -, rfl, -⟩ := (mem_walk ht).mp hu
      obtain ⟨n, t', names', hmem, -, rfl, -⟩ := (mem_walkEntries hrest).mp hu'
      have heq : p.below (n :: names') = p.below (m :: names) :=
        hpath.trans (p.child_below m names)
      rw [(List.cons.inj (p.below_injective heq)).1] at hmem
      exact hother t' hmem

end

/-! ## Paths of what a walk meets -/

theorem resolveFrom_cons (t : FileTree) (above : List String) {n : String} (hn : n ≠ "..")
    (rest : List String) :
    t.resolveFrom above (n :: rest) = t.resolveFrom (n :: above) rest := by
  cases above <;> rw [resolveFrom, if_neg hn]

theorem resolveFrom_append (t : FileTree) (above xs ys : List String) :
    t.resolveFrom above (xs ++ ys)
      = (t.resolveFrom above xs).bind fun r => t.resolveFrom r.reverse ys := by
  fun_induction resolveFrom t above xs with
  | case1 above => rw [List.nil_append, Option.bind_some, List.reverse_reverse]
  | case2 rest => rw [List.cons_append, resolveFrom, if_pos rfl, Option.bind_none]
  | case3 rest n up hdir ih =>
      rw [List.cons_append, resolveFrom, if_pos rfl]
      simp only [hdir, if_true, ih]
  | case4 rest n up hdir =>
      rw [List.cons_append, resolveFrom, if_pos rfl]
      simp only [hdir, if_false, Option.bind_none, Bool.false_eq_true]
  | case5 above n rest hn ih => rw [List.cons_append, resolveFrom_cons t above hn, ih]

theorem resolveFrom_names (t : FileTree) (above : List String) {names : List String}
    (h : ∀ n ∈ names, isName n = true) :
    t.resolveFrom above names = some (above.reverse ++ names) := by
  induction names generalizing above with
  | nil => rw [resolveFrom, List.append_nil]
  | cons n rest ih =>
      obtain ⟨hn, hrest⟩ := List.forall_mem_cons.mp h
      rw [resolveFrom_cons t above (isName_iff.mp hn).2, ih (n :: above) hrest,
        List.reverse_cons, List.append_assoc, List.singleton_append]

theorem root_of_find? {tree t : FileTree} {p : Path} (h : tree.find? p = some t) : p.root = "" := by
  obtain ⟨place, hplace, -⟩ := Option.bind_eq_some_iff.mp h
  rw [resolve?] at hplace
  split at hplace
  · assumption
  · exact absurd hplace (by simp)

/-- What stands some names below what a path names is named by the path with these names. -/
theorem find?_below {tree t : FileTree} {root : Path} (hroot : tree.find? root = some t)
    {names : List String} (h : ∀ n ∈ names, isName n = true) :
    tree.find? (root.below names) = t.get? names := by
  have hnone := root_of_find? hroot
  obtain ⟨place, hplace, ht⟩ := Option.bind_eq_some_iff.mp hroot
  rw [resolve?, if_pos hnone] at hplace
  have hbelow : tree.resolve? (root.below names) = some (place ++ names) := by
    rw [resolve?, Path.below, if_pos hnone, resolveFrom_append, hplace, Option.bind_some,
      resolveFrom_names tree _ h, List.reverse_reverse]
  rw [find?, hbelow, Option.bind_some, get?_append, ht, Option.bind_some]

/-- The path of what lies below a path that was read from a text is read back as it was written. -/
theorem parse_below {s : String} (hroot : (Path.parse s).root = "") {names : List String}
    (h : ∀ n ∈ names, isName n = true) :
    Path.parse ((Path.parse s).below names).toString = (Path.parse s).below names := by
  have hbelow : ((Path.parse s).below names).root = "" := by rw [Path.below, hroot]
  refine Path.parse_toString hbelow ?_
  intro n hn
  rw [Path.below] at hn
  rcases List.mem_append.mp hn with hn | hn
  · exact Path.parse_names_plain s n hn
  · exact (isName_iff.mp (h n hn)).1

/-- The same for the path as it is written, when the path of the start was read from a text. -/
theorem find?_parse_below {tree t : FileTree} {s : String} (hroot : tree.find? (.parse s) = some t)
    {names : List String} (h : ∀ n ∈ names, isName n = true) :
    tree.find? (.parse ((Path.parse s).below names).toString) = t.get? names := by
  rw [parse_below (root_of_find? hroot) h, find?_below hroot h]

theorem wellFormed_of_find? {tree t : FileTree} {p : Path} (h : tree.wellFormed = true)
    (hfind : tree.find? p = some t) : t.wellFormed = true := by
  obtain ⟨place, -, hget⟩ := Option.bind_eq_some_iff.mp hfind
  exact (wellFormed_get? h hget).1

theorem isDir_of_mem_filesBelow {t : FileTree} (h : t.wellFormed = true) {p q : Path}
    {b : ByteArray} (hfile : (q, b) ∈ t.filesBelow p) : t.isDir = true := by
  obtain ⟨names, hne, -, hget⟩ := (mem_filesBelow h).mp hfile
  exact isDir_of_get? hne hget

/-- A file that a walk meets is read by the path that the walk gives to it. -/
theorem read?_of_mem_filesBelow {tree t : FileTree} {s : String}
    (hroot : tree.find? (.parse s) = some t) (h : t.wellFormed = true) {q : Path} {b : ByteArray}
    (hfile : (q, b) ∈ t.filesBelow (.parse s)) : tree.read? (.parse q.toString) = some b := by
  obtain ⟨names, -, rfl, hget⟩ := (mem_filesBelow h).mp hfile
  rw [read?, find?_parse_below hroot (wellFormed_get? h hget).2, hget]
  rfl

/-- The files below a path that was read from a text are written in ways of their own. -/
theorem nodup_filesBelow {t : FileTree} {s : String} (hroot : (Path.parse s).root = "")
    (h : t.wellFormed = true) : ((t.filesBelow (.parse s)).map fun f => f.1.toString).Nodup := by
  have hback : ∀ q u, (q, u) ∈ t.walk (.parse s) → Path.parse q.toString = q := by
    intro q u hu
    obtain ⟨names, -, rfl, hget⟩ := (mem_walk h).mp hu
    exact parse_below hroot (wellFormed_get? h hget).2
  rw [List.Nodup, List.pairwise_map, filesBelow, List.pairwise_filterMap]
  refine (List.pairwise_map.mp (nodup_walk h (.parse s))).imp_of_mem ?_
  rintro ⟨q, u⟩ ⟨q', u'⟩ hu hu' hne f hf f' hf' heq
  -- a path can be read off the way it is written
  obtain ⟨b, -, rfl⟩ := Option.map_eq_some_iff.mp hf
  obtain ⟨b', -, rfl⟩ := Option.map_eq_some_iff.mp hf'
  apply hne
  rw [← hback q u hu, show q.toString = q'.toString from heq, hback q' u' hu']

end FileTree

end SymbolAtlas
