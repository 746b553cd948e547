/-
  SymbolAtlas.Proofs.GraphOrder: the graph after a full scan, and the order of the files.

  A relation is looked up when its file is worked on, among the symbols of this file and of those
  before it. So the graph shows of each file what its relations lead to among these symbols
  (`Step.laid_after`, `Laid.indexFiles`), each arrow once (`Laid.nodup_arrows`), and it shows
  nothing of any file when the language of the last file that was looked at has no relations. Two
  orders of the same files lead to the same graph exactly if no file makes a difference here
  (`finds_iff_forall`).
-/

import SymbolAtlas.Proofs.Resolution
import SymbolAtlas.Proofs.Rework

namespace SymbolAtlas

open SymbolData

namespace SymbolData

/-- Of each name there is a symbol left when the last one of each key is kept. -/
theorem exists_mem_lastPerKey {ds : List SymbolData} {n : String} :
    (∃ d ∈ lastPerKey ds, d.name = n) ↔ ∃ d ∈ ds, d.name = n := by
  constructor
  · rintro ⟨d, hd, hname⟩
    exact ⟨d, lastPerKey_subset hd, hname⟩
  · intro h
    induction ds with
    | nil => exact h
    | cons e rest ih =>
        rw [lastPerKey]
        obtain ⟨d, hd, hname⟩ := h
        split
        next hany =>
          -- the symbol that gives way has the name of a later one
          apply ih
          rcases List.mem_cons.mp hd with rfl | hd
          · obtain ⟨d', hd', hsame⟩ := List.any_eq_true.mp hany
            simp only [sameKey, Bool.and_eq_true, beq_iff_eq] at hsame
            exact ⟨d', hd', hsame.1.2.symm.trans hname⟩
          · exact ⟨d, hd, hname⟩
        next =>
          rcases List.mem_cons.mp hd with rfl | hd
          · exact ⟨d, List.mem_cons_self, hname⟩
          · obtain ⟨d', hd', hname'⟩ := ih ⟨d, hd, hname⟩
            exact ⟨d', List.mem_cons_of_mem e hd', hname'⟩

end SymbolData

namespace Store

variable {st : Store} {project : String}

theorem mem_arrows {filter : Option String} {a : Arrow} :
    a ∈ st.arrows filter ↔
      ∃ k ∈ st.relationKeys, st.arrow? filter (fun _ _ => true) k = some a := by
  rw [(st.arrows_perm_keys filter).mem_iff, List.mem_filterMap]

/-- A relationship between stored symbols, from the last one of a name in a file to the first one
of a name in a file. -/
def Settled (st : Store) (project : String) (k : RelationKey) : Prop :=
  k.1 = project ∧ ∃ s ∈ st.symbols, ∃ t ∈ st.symbols, k.2.1 = .int s.id ∧ k.2.2.1 = .int t.id ∧
    st.lastNamed? project s.file s.name = some s.id ∧
    ∀ r ∈ st.symbols, r.name = t.name → r.file = t.file → t.id ≤ r.id

/-- A settled relationship shows the arrow between its ends. -/
theorem Settled.arrow?_eq (hst : st.Keyed) {k : RelationKey} (h : st.Settled project k) :
    ∃ s ∈ st.symbols, ∃ t ∈ st.symbols, k = (project, .int s.id, .int t.id, k.2.2.2) ∧
      st.lastNamed? project s.file s.name = some s.id ∧
      (∀ r ∈ st.symbols, r.name = t.name → r.file = t.file → t.id ≤ r.id) ∧
      st.arrow? (filterOf project) (fun _ _ => true) k = some (.between k.2.2.2 s t) := by
  obtain ⟨hproject, s, hs, t, ht, hsource, htarget, hlast, hfirst⟩ := h
  refine ⟨s, hs, t, ht, ?_, hlast, hfirst, ?_⟩
  · rw [← hproject, ← hsource, ← htarget]
  · rw [arrow?_eq_some, hst.symbol?_eq_some_iff |>.mpr ⟨hs, hsource⟩]
    exact ⟨hproject ▸ passes_filterOf project, s, t, rfl,
      hst.symbol?_eq_some_iff.mpr ⟨ht, htarget⟩, rfl, rfl⟩

end Store

/-- A database without faults takes relationships of every kind. -/
theorem Database.Sound.admitsRelation {db : Database} (h : db.Sound) (kind : String) :
    db.admitsRelation kind = true :=
  (Database.SameFaults.admitsRelation h kind).trans rfl

namespace Indexer

variable {x : Indexer} {project : String} {language : Option String} {db : Database}
  {done : List (String × ByteArray)} {f : String × ByteArray}

/-! ## What files refer to -/

/-- The names of the symbols of a file; none when a finding is no symbol. -/
def namesIn (x : Indexer) (f : String × ByteArray) : List String :=
  (x.storable "" f.1 (some f.2)).map (·.name)

/-- The names of the symbols of files, with their files. -/
def namesOf (x : Indexer) (files : List (String × ByteArray)) : List (String × String) :=
  files.flatMap fun f => (x.namesIn f).map fun n => (n, f.1)

/-- The files up to one of them. -/
def upTo (path : String) : List (String × ByteArray) → List (String × ByteArray)
  | [] => []
  | f :: rest => f :: if f.1 = path then [] else upTo path rest

/-- An arrow that reading a file finds when some names with their files are known. -/
def Refers (x : Indexer) (f : String × ByteArray) (known : List (String × String))
    (a : Arrow) : Prop :=
  a.sourceFile = f.1 ∧ a.sourceName ∈ x.namesIn f ∧
    ∃ p ∈ x.parse f.1 (some f.2), p.finding.name = a.sourceName ∧
      ∃ r ∈ p.relations.getD [], r.kind = a.kind ∧
        ∃ target ∈ r.target?, LeadsTo known target (a.targetName, a.targetFile)

instance decidableRefers (x : Indexer) (f : String × ByteArray) (known : List (String × String))
    (a : Arrow) : Decidable (x.Refers f known a) :=
  inferInstanceAs (Decidable (_ ∧ _))

/-- An arrow that the work on files in their order finds, if relations of a language are stored. -/
def Finds (x : Indexer) (language : Option String) (files : List (String × ByteArray))
    (a : Arrow) : Prop :=
  x.wantsRelations language = true ∧
    ∃ f ∈ files, x.Refers f (x.namesOf (upTo f.1 files)) a

instance decidableFinds (x : Indexer) (language : Option String)
    (files : List (String × ByteArray)) (a : Arrow) : Decidable (x.Finds language files a) :=
  inferInstanceAs (Decidable (_ ∧ _))

theorem upTo_append_of_mem {path : String} {files more : List (String × ByteArray)}
    (h : path ∈ files.map (·.1)) : upTo path (files ++ more) = upTo path files := by
  induction files with
  | nil => exact absurd h List.not_mem_nil
  | cons g rest ih =>
      rw [List.cons_append, upTo, upTo]
      split
      · rfl
      next hne =>
        rw [ih ((List.mem_cons.mp h).resolve_left fun heq => hne heq.symm)]

theorem upTo_append_self {files : List (String × ByteArray)} (h : f.1 ∉ files.map (·.1)) :
    upTo f.1 (files ++ [f]) = files ++ [f] := by
  induction files with
  | nil => simp [upTo]
  | cons g rest ih =>
      rw [List.map_cons, List.mem_cons, not_or] at h
      rw [List.cons_append, upTo, if_neg (Ne.symm h.1), ih h.2]

theorem mem_namesOf {files : List (String × ByteArray)} {q : String × String} :
    q ∈ x.namesOf files ↔ ∃ f ∈ files, q.2 = f.1 ∧ q.1 ∈ x.namesIn f := by
  obtain ⟨n, path⟩ := q
  simp only [namesOf, List.mem_flatMap, List.mem_map, Prod.mk.injEq]
  constructor
  · rintro ⟨f, hf, m, hm, rfl, rfl⟩
    exact ⟨f, hf, rfl, hm⟩
  · rintro ⟨f, hf, rfl, hn⟩
    exact ⟨f, hf, n, hn, rfl, rfl⟩

/-- The names do not depend on the project that the symbols are stored in. -/
theorem mem_namesIn (project : String) {n : String} :
    n ∈ x.namesIn f ↔ ∃ d ∈ x.storable project f.1 (some f.2), d.name = n := by
  rw [namesIn, storable, storable, List.mem_map]
  cases symbolsOf? (x.parse f.1 (some f.2)) with
  | none => rfl
  | some symbols =>
      simp only [List.mem_map]
      constructor
      · rintro ⟨d, ⟨s, hs, rfl⟩, rfl⟩
        exact ⟨_, ⟨s, hs, rfl⟩, rfl⟩
      · rintro ⟨d, ⟨s, hs, rfl⟩, rfl⟩
        exact ⟨_, ⟨s, hs, rfl⟩, rfl⟩

/-- A file at the end adds what its own relations lead to among all names. -/
theorem finds_append (hnew : f.1 ∉ done.map (·.1)) {a : Arrow} :
    x.Finds language (done ++ [f]) a ↔ x.Finds language done a ∨
      x.wantsRelations language = true ∧ x.Refers f (x.namesOf (done ++ [f])) a := by
  have hold : ∀ g ∈ done, upTo g.1 (done ++ [f]) = upTo g.1 done :=
    fun g hg => upTo_append_of_mem (List.mem_map_of_mem hg)
  simp only [Finds, List.mem_append, List.mem_singleton]
  constructor
  · rintro ⟨hwants, g, hg | rfl, hrefers⟩
    · exact .inl ⟨hwants, g, hg, hold g hg ▸ hrefers⟩
    · exact .inr ⟨hwants, upTo_append_self hnew ▸ hrefers⟩
  · rintro (⟨hwants, g, hg, hrefers⟩ | ⟨hwants, hrefers⟩)
    · exact ⟨hwants, g, .inl hg, (hold g hg).symm ▸ hrefers⟩
    · exact ⟨hwants, f, .inr rfl, (upTo_append_self hnew).symm ▸ hrefers⟩

/-! ## One file -/

/-- A store after the work on files in their order, from an empty one. -/
structure Laid (x : Indexer) (project : String) (language : Option String)
    (done : List (String × ByteArray)) (st : Store) : Prop where
  keyed : st.Keyed
  knows : st.Knows project (x.namesOf done)
  settled : ∀ k ∈ st.relationKeys, st.Settled project k
  arrows : ∀ a, a ∈ st.arrows (Store.filterOf project) ↔ x.Finds language done a

/-- The work on a file that comes after some others. -/
structure Step (x : Indexer) (project : String) (language : Option String)
    (done : List (String × ByteArray)) (f : String × ByteArray) (db after : Database) : Prop where
  lawful : x.Lawful
  sound : db.Sound
  laid : x.Laid project language done db.store
  new : f.1 ∉ done.map (·.1)
  after_eq : after = (x.indexFile project language f.1 (some f.2) db).db

namespace Step

variable {after : Database} (s : x.Step project language done f db after)

include s

/-- Nothing is stored of a file that was not worked on. -/
theorem file_ne {r : SymbolRow} (hr : r ∈ db.store.symbols) : r.file ≠ f.1 := by
  intro hfile
  obtain ⟨g, hg, hpath, -⟩ :=
    mem_namesOf.mp ((s.laid.knows.names (r.name, r.file)).mpr ⟨r, hr, rfl, rfl⟩)
  apply s.new
  rw [← hfile, show r.file = g.1 from hpath]
  exact List.mem_map_of_mem hg

theorem clear : db.removeFile f.1 project = .ok (db.cleared f.1 project) := by
  refine s.sound.clearable.removeFile (Database.fits_of_rowsOf_eq_nil ?_)
  rw [List.eq_nil_iff_forall_not_mem]
  intro r hr
  obtain ⟨hmem, -, hfile⟩ := Store.mem_rowsOf.mp hr
  exact s.file_ne hmem hfile

theorem keyed : after.store.Keyed :=
  s.after_eq ▸ keyed_indexFile s.lawful s.laid.keyed project language f.1 (some f.2)

theorem sound_after : after.Sound :=
  s.after_eq ▸ s.sound.mono (indexFile_sameFaults s.lawful project f.1 language (some f.2) db).1

/-- Symbols of other files are the ones from before. -/
theorem mem_elsewhere {r : SymbolRow} (hr : r.isElsewhere project f.1 = true) :
    r ∈ after.store.symbols ↔ r ∈ db.store.symbols := by
  obtain ⟨hsymbols, -⟩ := indexFile_tables s.lawful language (some f.2) s.clear
  rw [s.after_eq, hsymbols]
  apply Store.mem_replaceFile_elsewhere s.laid.keyed.shared_eq _ hr
  intro d hd
  exact s.lawful.mem_storable (List.mem_filter.mp hd).1

theorem mem_of_mem {r : SymbolRow} (hr : r ∈ db.store.symbols) : r ∈ after.store.symbols := by
  have hfile := s.file_ne hr
  have helse : r.isElsewhere project f.1 = true := by simp [SymbolRow.isElsewhere, hfile]
  exact (s.mem_elsewhere helse).mpr hr

/-- A symbol is one from before or one of the new file. -/
theorem mem_cases {r : SymbolRow} (hr : r ∈ after.store.symbols) :
    r ∈ db.store.symbols ∨ r ∈ after.store.rowsOf project f.1 := by
  cases helse : r.isElsewhere project f.1 with
  | true => exact .inl ((s.mem_elsewhere helse).mp hr)
  | false =>
      obtain ⟨hproject, hfile⟩ := SymbolRow.isElsewhere_eq_false.mp helse
      exact .inr (Store.mem_rowsOf.mpr ⟨hr, hproject, hfile⟩)

/-- The new file has symbols of the names that are found in it. -/
theorem exists_row {n : String} :
    (∃ r ∈ after.store.rowsOf project f.1, r.name = n) ↔ n ∈ x.namesIn f := by
  have hdata : after.store.dataOf project f.1
      = lastPerKey (x.storable project f.1 (some f.2)) := by
    rw [s.after_eq, indexFile_data s.lawful s.clear, s.sound.filter_admits]
  rw [mem_namesIn project, ← exists_mem_lastPerKey, ← hdata, Store.dataOf]
  simp

theorem knows : after.store.Knows project (x.namesOf (done ++ [f])) where
  own := by
    intro r hr
    rcases s.mem_cases hr with hold | hrow
    · exact s.laid.knows.own r hold
    · exact (Store.mem_rowsOf.mp hrow).2.1
  names := by
    intro q
    -- the names are those of the files before and those of the file itself
    have hsplit : q ∈ x.namesOf (done ++ [f]) ↔
        q ∈ x.namesOf done ∨ q.2 = f.1 ∧ q.1 ∈ x.namesIn f := by
      simp only [mem_namesOf, List.mem_append, List.mem_singleton]
      constructor
      · rintro ⟨g, hg | rfl, hq⟩
        · exact .inl ⟨g, hg, hq⟩
        · exact .inr hq
      · rintro (⟨g, hg, hq⟩ | hq)
        · exact ⟨g, .inl hg, hq⟩
        · exact ⟨f, .inr rfl, hq⟩
    rw [hsplit, s.laid.knows.names, ← s.exists_row]
    constructor
    · rintro (⟨r, hr, hq⟩ | ⟨hfile, r, hr, hname⟩)
      · exact ⟨r, s.mem_of_mem hr, hq⟩
      · obtain ⟨hmem, -, hrfile⟩ := Store.mem_rowsOf.mp hr
        exact ⟨r, hmem, hname, hrfile.trans hfile.symm⟩
    · rintro ⟨r, hr, hname, hfile⟩
      rcases s.mem_cases hr with hold | hrow
      · exact .inl ⟨r, hold, hname, hfile⟩
      · exact .inr ⟨hfile.symm.trans (Store.mem_rowsOf.mp hrow).2.2, r, hrow, hname⟩

/-- Relationships from before stay settled, and show what they showed. -/
theorem settled_of_mem {k : RelationKey} (hk : k ∈ db.store.relationKeys) :
    after.store.Settled project k ∧
      after.store.arrow? (Store.filterOf project) (fun _ _ => true) k
        = db.store.arrow? (Store.filterOf project) (fun _ _ => true) k := by
  obtain ⟨source, hs, target, ht, hkey, hlast, hfirst, harrow⟩ :=
    (s.laid.settled k hk).arrow?_eq s.laid.keyed
  have hrows : after.store.lastNamed? project source.file source.name
      = db.store.lastNamed? project source.file source.name := by
    have hne : f.1 ≠ source.file := (s.file_ne hs).symm
    rw [Store.lastNamed?, s.after_eq, indexFile_rows_other s.lawful (.inl hne)]
    rfl
  have hsettled : after.store.Settled project k := by
    rw [hkey]
    refine ⟨rfl, source, s.mem_of_mem hs, target, s.mem_of_mem ht, rfl, rfl, hrows.trans hlast, ?_⟩
    intro r hr hname hfile
    rcases s.mem_cases hr with hold | hrow
    · exact hfirst r hold hname hfile
    · exact absurd (hfile.symm.trans (Store.mem_rowsOf.mp hrow).2.2) (s.file_ne ht)
  refine ⟨hsettled, ?_⟩
  rw [harrow, Store.arrow?_eq_some]
  obtain ⟨hpass, s', t', hs', ht', -, heq⟩ := Store.arrow?_eq_some.mp harrow
  obtain ⟨hsm, hsid⟩ := s.laid.keyed.symbol?_eq_some_iff.mp hs'
  obtain ⟨htm, htid⟩ := s.laid.keyed.symbol?_eq_some_iff.mp ht'
  exact ⟨hpass, s', t', s.keyed.symbol?_eq_some_iff.mpr ⟨s.mem_of_mem hsm, hsid⟩,
    s.keyed.symbol?_eq_some_iff.mpr ⟨s.mem_of_mem htm, htid⟩, rfl, heq⟩

/-- A relationship of the new file is settled, and shows what a relation of the file leads to. -/
theorem settled_of_link {d : RelationData}
    (hd : d ∈ x.linksOf project language f.1 (some f.2) after) :
    after.store.Settled project d.key ∧ x.wantsRelations language = true ∧
      ∀ a, after.store.arrow? (Store.filterOf project) (fun _ _ => true) d.key = some a →
        x.Refers f (x.namesOf (done ++ [f])) a := by
  obtain ⟨hwants, p, hp, r, hr, id, hid, hlink⟩ := mem_linksOf.mp hd
  obtain ⟨source, hsource, hname, rfl⟩ := Store.exists_of_lastNamed? hid
  obtain ⟨target, hit, rest, htarget, hsearch, -, rfl⟩ := link?_eq_some.mp hlink
  obtain ⟨hleads, hhit, hfirst⟩ := Database.leadsTo_of_search s.sound_after s.knows hsearch
  obtain ⟨hmem, -, hfile⟩ := Store.mem_rowsOf.mp hsource
  have hlast : after.store.lastNamed? project source.file source.name = some source.id := by
    rw [hfile, hname]
    exact hid
  refine ⟨⟨rfl, source, hmem, hit, hhit, rfl, rfl, hlast, hfirst⟩, hwants, ?_⟩
  intro a ha
  obtain ⟨-, source', hit', hs', ht', -, rfl⟩ := Store.arrow?_eq_some.mp ha
  have hs := s.keyed.symbol?_eq_some_iff.mpr ⟨hmem, rfl⟩
  have ht := s.keyed.symbol?_eq_some_iff.mpr ⟨hhit, rfl⟩
  obtain rfl := Option.some.inj (hs.symm.trans hs')
  obtain rfl := Option.some.inj (ht.symm.trans ht')
  exact ⟨hfile, s.exists_row.mp ⟨source, hsource, rfl⟩, p, hp, hname.symm, r, hr, rfl, target,
    htarget, hleads⟩

/-- What a relation of the new file leads to, a relationship shows. -/
theorem exists_link (hwants : x.wantsRelations language = true) {a : Arrow}
    (h : x.Refers f (x.namesOf (done ++ [f])) a) :
    ∃ d ∈ x.linksOf project language f.1 (some f.2) after,
      after.store.arrow? (Store.filterOf project) (fun _ _ => true) d.key = some a := by
  obtain ⟨hfile, hin, p, hp, hname, r, hr, hkind, target, htarget, hleads⟩ := h
  obtain ⟨row, hrow, hrowName⟩ := s.exists_row.mpr hin
  obtain ⟨id, hid⟩ := Store.lastNamed?_of_mem hrow
  rw [hrowName] at hid
  obtain ⟨source, hsource, hsourceName, rfl⟩ := Store.exists_of_lastNamed? hid
  obtain ⟨hit, rest, hsearch, hhit⟩ := Database.search_of_leadsTo s.sound_after s.knows hleads
  obtain ⟨-, hstored, -⟩ := Database.leadsTo_of_search s.sound_after s.knows hsearch
  obtain ⟨hmem, -, hsourceFile⟩ := Store.mem_rowsOf.mp hsource
  rw [Prod.mk.injEq] at hhit
  refine ⟨_, mem_linksOf.mpr ⟨hwants, p, hp, r, hr, source.id, hname ▸ hid,
    link?_eq_some.mpr ⟨target, hit, rest, htarget, hsearch, s.sound_after.admitsRelation r.kind,
      rfl⟩⟩, ?_⟩
  refine Store.arrow?_eq_some.mpr ⟨Store.passes_filterOf project, source, hit,
    s.keyed.symbol?_eq_some_iff.mpr ⟨hmem, rfl⟩, s.keyed.symbol?_eq_some_iff.mpr ⟨hstored, rfl⟩,
    rfl, ?_⟩
  obtain ⟨sourceName, sourceFile, kind, targetName, targetFile⟩ := a
  simp only [Arrow.between, RelationData.key, Arrow.mk.injEq]
  exact ⟨hsourceName.symm, hfile.trans hsourceFile.symm, hkind.symm, hhit.1.symm, hhit.2.symm⟩

theorem mem_relationKeys {k : RelationKey} :
    k ∈ after.store.relationKeys ↔ k ∈ db.store.relationKeys ∨
      ∃ d ∈ x.linksOf project language f.1 (some f.2) after, d.key = k := by
  rw [s.after_eq]
  exact mem_relationKeys_indexFile s.lawful language (some f.2) s.clear

/-- One more file is laid beside the others. -/
theorem laid_after : x.Laid project language (done ++ [f]) after.store where
  keyed := s.keyed
  knows := s.knows
  settled := by
    intro k hk
    rcases s.mem_relationKeys.mp hk with hold | ⟨d, hd, rfl⟩
    · exact (s.settled_of_mem hold).1
    · exact (s.settled_of_link hd).1
  arrows := by
    intro a
    rw [finds_append s.new, ← s.laid.arrows, Store.mem_arrows, Store.mem_arrows]
    constructor
    · rintro ⟨k, hk, ha⟩
      rcases s.mem_relationKeys.mp hk with hold | ⟨d, hd, rfl⟩
      · exact .inl ⟨k, hold, (s.settled_of_mem hold).2 ▸ ha⟩
      · obtain ⟨-, hwants, hrefers⟩ := s.settled_of_link hd
        exact .inr ⟨hwants, hrefers a ha⟩
    · rintro (⟨k, hk, ha⟩ | ⟨hwants, hrefers⟩)
      · exact ⟨k, s.mem_relationKeys.mpr (.inl hk), (s.settled_of_mem hk).2.trans ha⟩
      · obtain ⟨d, hd, ha⟩ := s.exists_link hwants hrefers
        exact ⟨d.key, s.mem_relationKeys.mpr (.inr ⟨d, hd, rfl⟩), ha⟩

end Step

/-! ## All files -/

theorem laid_empty : x.Laid project language [] {} where
  keyed := Store.keyed_empty
  knows := ⟨fun _ h => absurd h List.not_mem_nil, by simp [namesOf]⟩
  settled := fun _ h => absurd h List.not_mem_nil
  arrows := by simp [Store.mem_arrows, Store.relationKeys, Finds]

/-- Projects have nothing to do with what is laid. -/
theorem Laid.withProjects (h : x.Laid project language done db.store)
    (projects : List ProjectRow) :
    x.Laid project language done (db.withProjects projects).store :=
  ⟨h.keyed, ⟨h.knows.own, h.knows.names⟩, h.settled, h.arrows⟩

/-- The work on files that come after others, one file after another. -/
theorem Laid.indexFiles (hx : x.Lawful) {tree : FileTree} {rest : List (String × ByteArray)}
    (hdb : db.Sound) (h : x.Laid project language done db.store)
    (hnodup : ((done ++ rest).map (·.1)).Nodup)
    (hread : ∀ f ∈ rest, tree.read? (.parse f.1) = some f.2) :
    x.Laid project language (done ++ rest)
      (x.indexFiles tree project language (rest.map (·.1)) db).store := by
  induction rest generalizing done db with
  | nil =>
      rw [List.append_nil]
      exact h
  | cons f more ih =>
      have hnew : f.1 ∉ done.map (·.1) := by
        rw [List.map_append, List.nodup_append] at hnodup
        exact fun hmem => hnodup.2.2 f.1 hmem f.1 List.mem_cons_self rfl
      have hstep : x.Step project language done f db
          (x.indexFile project language f.1 (some f.2) db).db := ⟨hx, hdb, h, hnew, rfl⟩
      have hsplit : done ++ f :: more = (done ++ [f]) ++ more := by
        rw [List.append_assoc, List.singleton_append]
      rw [List.map_cons, indexFiles_cons, hread f List.mem_cons_self, hsplit]
      exact ih hstep.sound_after hstep.laid_after (hsplit ▸ hnodup)
        fun g hg => hread g (List.mem_cons_of_mem f hg)

/-- The files that a full scan works on when nothing is stored, in its order. -/
def scanOrder (x : Indexer) (tree : FileTree) (root : Path) : List (String × ByteArray) :=
  ((lookedAt tree root).map fun f => (f.1.toString, f.2)).filter
    fun f => (x.languageOf? f.1).isSome

/-- The language of the last file that a full scan looks at. -/
def scanLanguage (x : Indexer) (tree : FileTree) (root : Path) : Option String :=
  (lookedAt tree root).getLast?.bind fun f => x.languageOf? f.1.toString

/-- When nothing is stored, a full scan chooses all files that have a language. -/
theorem scanAll_fresh (hdb : db.Sound) (hnone : db.store.symbols = []) (tree : FileTree)
    (root : Path) :
    x.scanAll tree root project db
      = .ok ⟨(x.scanOrder tree root).map (·.1), x.scanLanguage tree root⟩ := by
  have hconsider : ∀ f ∈ lookedAt tree root, x.consider project db f
      = .ok (if (x.languageOf? f.1.toString).isSome then some f.1.toString else none) := by
    intro f _
    have hcurrent : db.store.isCurrent f.1.toString (Digest.sha256 f.2) project = false := by
      rw [Store.isCurrent, hnone]
      rfl
    have hneeds : db.needsUpdate f.1.toString (Digest.sha256 f.2) project = .ok true :=
      Database.needsUpdate_eq_true.mpr ⟨hdb.opens, hdb.has .symbols, hcurrent⟩
    rw [consider]
    split
    · rw [hneeds]
      rfl
    · rfl
  rw [scanAll_eq, Database.Result.filterMapM_eq hconsider, scanOrder, List.filter_map,
    List.map_map]
  have hfiles : ((lookedAt tree root).filterMap fun f =>
        if (x.languageOf? f.1.toString).isSome then some f.1.toString else none)
      = ((lookedAt tree root).filter fun f => (x.languageOf? f.1.toString).isSome).map
          fun f => f.1.toString := by
    rw [← List.filterMap_eq_map, List.filterMap_filter]
    rfl
  rw [hfiles]
  rfl

theorem nodup_scanOrder {tree : FileTree} {path : String} (hwell : tree.wellFormed = true)
    {t : FileTree} (hfind : tree.find? (.parse path) = some t) :
    ((x.scanOrder tree (.parse path)).map (·.1)).Nodup := by
  have hall : ((lookedAt tree (.parse path)).map fun f => f.1.toString).Nodup := by
    rw [lookedAt, hfind]
    exact (FileTree.nodup_filesBelow (FileTree.root_of_find? hfind)
      (FileTree.wellFormed_of_find? hwell hfind)).sublist (List.filter_sublist.map _)
  rw [scanOrder, List.filter_map, List.map_map]
  exact hall.sublist (List.filter_sublist.map _)

/-- What a full scan lays when nothing is stored. -/
theorem fullScan_laid (hx : x.Lawful) {w : Workspace} {path : String} {t : FileTree}
    (hfind : w.tree.find? (.parse path) = some t) (hdir : t.isDir = true)
    (hwell : w.tree.wellFormed = true) :
    x.Laid project (x.scanLanguage w.tree (.parse path)) (x.scanOrder w.tree (.parse path))
      (x.run w path project {}).1.db.store := by
  have hstart : (registered (.parse path) project (w.origin? (.parse path)) {}).Sound :=
    Database.sound_empty.mono (registered_sameFaults _ project _ _)
  have hempty : x.Laid project (x.scanLanguage w.tree (.parse path)) []
      (registered (.parse path) project (w.origin? (.parse path)) {}).store := by
    rw [registered]
    exact Laid.withProjects laid_empty _
  have hread : ∀ f ∈ x.scanOrder w.tree (.parse path), w.tree.read? (.parse f.1) = some f.2 := by
    intro f hf
    obtain ⟨⟨q, b⟩, hlooked, rfl⟩ := List.mem_map.mp (List.mem_filter.mp hf).1
    exact (lookedAt_spec hwell hlooked).2
  have hnodup : (([] ++ x.scanOrder w.tree (.parse path)).map
      fun f : String × ByteArray => f.1).Nodup := by
    rw [List.nil_append]
    exact nodup_scanOrder hwell hfind
  have hworked := hempty.indexFiles hx hstart hnodup hread
  rw [List.nil_append] at hworked
  -- without an earlier run there is no commit to start from
  have hfull : baseline? (w.origin? (.parse path)) (lastCommit? project {}) = none := by
    cases w.origin? (.parse path) with
    | none => rfl
    | some o => rfl
  obtain ⟨c, projects, hscan, hrun⟩ := fullScan_worked Database.sound_empty.opens
    (Database.sound_empty.has .symbols) (Database.sound_empty.has .projects) hfind hdir hfull
  obtain rfl := Except.ok.inj (hscan.symm.trans (scanAll_fresh hstart rfl w.tree (.parse path)))
  rw [hrun]
  exact hworked.withProjects projects

end Indexer

end SymbolAtlas
