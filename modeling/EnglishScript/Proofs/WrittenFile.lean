import Mathlib.Data.List.Basic
import EnglishScript.FileTree

namespace EnglishScript

namespace FileTree

variable {t u : FileTree}

theorem fromTop_congr (h : t.top = u.top) (path : Text) : t.fromTop path = u.fromTop path := by
  simp only [fromTop, h]

theorem find_congr (htop : t.top = u.top) (h : ∀ p, t.at? p = u.at? p) (path : Text) : t.find path = u.find path := by
  have hwalk : ∀ (way : List Text) (p : Place), t.walk p way = u.walk p way := by
    intro way
    induction way with
    | nil => intro p; simp only [walk, h p]
    | cons s rest ih => intro p; simp only [walk, h p, ih]
  simp only [find, fromTop_congr htop, hwalk]

theorem walk_nil_ok {p q : Place} {e : Entry} (h : t.walk p [] = .ok (q, e)) : p = q ∧ t.at? p = some e := by
  unfold walk at h
  split at h
  next hat =>
    cases h
    exact ⟨rfl, hat⟩
  next => cases h

theorem walk_cons (p : Place) (s : Text) (rest : List Text) (h : t.at? p = some .directory) :
    t.walk p (s :: rest) = t.walk (if s = utf8 ".." then p.dropLast else p ++ [s]) rest := by
  simp only [walk, h]

theorem directory_of_walk_cons {p : Place} {s : Text} {rest : List Text} {r : Place × Entry}
    (h : t.walk p (s :: rest) = .ok r) : t.at? p = some .directory := by
  unfold walk at h
  split at h
  next => cases h
  next hat => exact hat
  next => cases h

theorem at_of_walk {way : List Text} {q : Place} {e : Entry} : ∀ {p : Place}, t.walk p way = .ok (q, e) →
    t.at? q = some e := by
  induction way with
  | nil =>
    intro p h
    obtain ⟨rfl, hat⟩ := walk_nil_ok h
    exact hat
  | cons s rest ih =>
    intro p h
    rw [walk_cons p s rest (directory_of_walk_cons h)] at h
    exact ih h

theorem walk_append {way : List Text} (more : List Text) {q : Place} {e : Entry} : ∀ {p : Place},
    t.walk p way = .ok (q, e) → t.walk p (way ++ more) = t.walk q more := by
  induction way with
  | nil =>
    intro p h
    obtain ⟨rfl, _⟩ := walk_nil_ok h
    rfl
  | cons s rest ih =>
    intro p h
    have hat := directory_of_walk_cons h
    rw [walk_cons p s rest hat] at h
    rw [List.cons_append, walk_cons p s _ hat, ih h]

theorem walk_directories (h : ∀ q, t.at? q = some .directory → u.at? q = some .directory) {way : List Text}
    {q : Place} : ∀ {p : Place}, t.walk p way = .ok (q, .directory) → u.walk p way = .ok (q, .directory) := by
  induction way with
  | nil =>
    intro p hwalk
    obtain ⟨rfl, hat⟩ := walk_nil_ok hwalk
    simp only [walk, h p hat]
  | cons s rest ih =>
    intro p hwalk
    have hat := directory_of_walk_cons hwalk
    rw [walk_cons p s rest hat] at hwalk
    rw [walk_cons p s rest (h p hat), ih hwalk]

theorem split_ok {path : Text} {p : Place} {name : Text} (h : t.split path = .ok (p, name)) :
    ∃ way, t.fromTop path = some (way ++ [name]) ∧ t.walk [] way = .ok (p, .directory) := by
  unfold split at h
  split at h
  next => cases h
  next way hway =>
    split at h
    next => cases h
    next last hlast =>
      split at h
      next => cases h
      next q hwalk =>
        cases h
        refine ⟨way.dropLast, ?_, hwalk⟩
        rw [hway, List.dropLast_append_getLast? name hlast]
      next => cases h

theorem split_of_walk {path : Text} {way : List Text} {p : Place} {name : Text}
    (hpath : t.fromTop path = some (way ++ [name])) (hwalk : t.walk [] way = .ok (p, .directory)) :
    t.split path = .ok (p, name) := by
  simp only [split, hpath, List.getLast?_concat, List.dropLast_concat, hwalk]

theorem lookup_filter_ne {entries : List (Place × Entry)} {p q : Place} (h : q ≠ p) :
    (entries.filter fun e => e.1 != p).lookup q = entries.lookup q := by
  induction entries with
  | nil => rfl
  | cons e rest ih =>
    obtain ⟨key, entry⟩ := e
    by_cases hkey : key = p
    · subst hkey
      have hne : (q == key) = false := by simpa using h
      simp only [List.filter_cons, bne_self_eq_false, Bool.false_eq_true, ↓reduceIte, ih, List.lookup_cons, hne]
    · have hkept : (key != p) = true := by simpa using hkey
      simp only [List.filter_cons, hkept, ↓reduceIte, List.lookup_cons, ih]

/-- Something stands at the place or below it. -/
def Reached (t : FileTree) (q : Place) : Prop :=
  q = [] ∨ ∃ e ∈ t.entries, q <+: e.1

theorem at_of_lookup_none {q : Place} (h : t.entries.lookup q = none) : t.at? q = some .directory ↔ t.Reached q := by
  have hany : (t.entries.any fun e => q.isPrefixOf e.1) = true ↔ ∃ e ∈ t.entries, q <+: e.1 := by
    simp only [List.any_eq_true, List.isPrefixOf_iff_prefix]
  simp only [at?, h, Reached]
  rw [← hany, ← List.isEmpty_iff, ← Bool.or_eq_true]
  split
  next hcond => simp [hcond]
  next hcond => simp [hcond]

theorem at_ne_none_iff {q : Place} : t.at? q ≠ none ↔ t.Reached q := by
  cases h : t.entries.lookup q with
  | some e =>
    obtain ⟨before, after, hentries, _⟩ := List.lookup_eq_some_iff.mp h
    have hreached : t.Reached q := Or.inr ⟨(q, e), by simp [hentries], List.prefix_rfl⟩
    simp [at?, h, hreached]
  | none =>
    rw [← at_of_lookup_none h]
    simp only [at?, h]
    split <;> simp

theorem at_congr {q : Place} (hlookup : t.entries.lookup q = u.entries.lookup q) (h : t.Reached q ↔ u.Reached q) :
    t.at? q = u.at? q := by
  cases hq : t.entries.lookup q with
  | some e => simp only [at?, ← hlookup, hq]
  | none =>
    have ht := at_of_lookup_none hq
    have hu := at_of_lookup_none (hlookup ▸ hq)
    by_cases hreached : t.Reached q
    · rw [ht.mpr hreached, hu.mpr (h.mp hreached)]
    · have hnone := not_not.mp (mt at_ne_none_iff.mp hreached)
      have hnone' := not_not.mp (mt at_ne_none_iff.mp (mt h.mpr hreached))
      rw [hnone, hnone']

theorem Reached.above {q r : Place} (h : t.Reached r) (hq : q <+: r) : t.Reached q := by
  rcases h with rfl | ⟨e, he, hr⟩
  · exact Or.inl (List.prefix_nil.mp hq)
  · exact Or.inr ⟨e, he, hq.trans hr⟩

def withFile (t : FileTree) (place : Place) (content : Text) : FileTree :=
  { t with entries := (place, .file content) :: t.entries.filter fun e => e.1 != place }

theorem write_ok {path content : Text} {made : FileTree} (h : t.write path content = .ok made) :
    ∃ p name, t.split path = .ok (p, name) ∧ path ≠ [] ∧ path.getLast? ≠ some slash ∧
      t.at? (p ++ [name]) ≠ some .directory ∧ made = t.withFile (p ++ [name]) content := by
  unfold write at h
  split at h
  next => cases h
  next hempty =>
    split at h
    next => cases h
    next p name hsplit =>
      simp only at h
      split at h
      next => cases h
      next hplace =>
        simp only [Bool.or_eq_true, decide_eq_true_eq, beq_iff_eq, not_or] at hplace
        cases h
        exact ⟨p, name, hsplit, by simpa using hempty, hplace.2, hplace.1, rfl⟩

theorem directory_withFile {place : Place} (content : Text) (hplace : t.at? place ≠ some .directory) {q : Place}
    (hq : t.at? q = some .directory) : (t.withFile place content).at? q = some .directory := by
  have hne : q ≠ place := fun h => hplace (h ▸ hq)
  have hlookup : (t.withFile place content).entries.lookup q = t.entries.lookup q := by
    have hkey : (q == place) = false := by simpa using hne
    rw [withFile, List.lookup_cons, hkey, lookup_filter_ne hne]
  rw [← hq]
  refine at_congr hlookup ?_
  have hreached : t.Reached q := at_ne_none_iff.mp (by simp [hq])
  refine ⟨fun _ => hreached, fun _ => ?_⟩
  rcases hreached with hnil | ⟨e, he, habove⟩
  · exact Or.inl hnil
  · by_cases hkey : e.1 = place
    · exact Or.inr ⟨(place, .file content), List.mem_cons_self .., hkey ▸ habove⟩
    · exact Or.inr ⟨e, List.mem_cons_of_mem _ (List.mem_filter.mpr ⟨he, by simpa using hkey⟩), habove⟩

/-- A path that leads nowhere leads to a place where nothing stands. -/
theorem at_of_find_none {path : Text} {p : Place} {name : Text} (hpath : path ≠ []) (hslash : path.getLast? ≠ some slash)
    (hsplit : t.split path = .ok (p, name)) (h : t.find path = .error .noSuchFile) : t.at? (p ++ [name]) = none := by
  obtain ⟨way, hway, hwalk⟩ := split_ok hsplit
  have hdirectory := at_of_walk hwalk
  -- a walk to the last step would find what stands there
  have hnowhere : t.at? (if name = utf8 ".." then p.dropLast else p ++ [name]) = none := by
    by_contra hsome
    obtain ⟨e, he⟩ := Option.ne_none_iff_exists'.mp hsome
    have hlast : ∃ q, t.walk [] (way ++ [name]) = .ok (q, e) := by
      rw [walk_append [name] hwalk, walk_cons p name [] hdirectory]
      simp only [walk, he]
      exact ⟨_, rfl⟩
    obtain ⟨q, hlast⟩ := hlast
    have hempty : path.isEmpty = false := by simpa using hpath
    have hopen : (path.getLast? == some slash) = false := by simpa using hslash
    simp only [find, hway, hempty, hlast, hopen, Bool.false_eq_true, ↓reduceIte] at h
    cases e <;> cases h
  by_cases hup : name = utf8 ".."
  · rw [if_pos hup] at hnowhere
    have hreached : t.Reached p := at_ne_none_iff.mp (by simp [hdirectory])
    exact absurd hnowhere (at_ne_none_iff.mpr (hreached.above p.dropLast_prefix))
  · rwa [if_neg hup] at hnowhere

/-- Nothing had the place of the file as its key, so taking the file away gives back the entries. -/
theorem entries_withFile {place : Place} (content : Text) (h : ¬t.Reached place) :
    ((t.withFile place content).entries.filter fun e => e.1 != place) = t.entries := by
  have hkept : ∀ e ∈ t.entries, (e.1 != place) = true := by
    intro e he
    have hkey : e.1 ≠ place := fun hkey => h (Or.inr ⟨e, he, hkey ▸ List.prefix_rfl⟩)
    simpa using hkey
  rw [withFile, List.filter_cons, bne_self_eq_false, List.filter_eq_self.mpr hkept]
  exact List.filter_eq_self.mpr hkept

/-- An entry for a directory that is there anyway changes nothing. -/
theorem find_withDirectory {p : Place} (h : t.at? p = some .directory) (path : Text) :
    FileTree.find { t with entries := (p, .directory) :: t.entries } path = t.find path := by
  apply find_congr
  · rfl
  intro q
  by_cases hq : q = p
  · subst hq
    rw [h]
    simp only [at?, List.lookup_cons, beq_self_eq_true]
  · have hkey : (q == p) = false := by simpa using hq
    refine at_congr (by simp only [List.lookup_cons, hkey]) ?_
    have hreached : t.Reached p := at_ne_none_iff.mp (by simp [h])
    constructor
    · rintro (hnil | ⟨e, he, habove⟩)
      · exact Or.inl hnil
      · rcases List.mem_cons.mp he with rfl | he
        · exact hreached.above habove
        · exact Or.inr ⟨e, he, habove⟩
    · rintro (hnil | ⟨e, he, habove⟩)
      · exact Or.inl hnil
      · exact Or.inr ⟨e, List.mem_cons_of_mem _ he, habove⟩

/-- A file that is written where none was and taken away again leaves everything as it was. -/
theorem find_remove_write {path content : Text} {made : FileTree} (hfree : t.find path = .error .noSuchFile)
    (h : t.write path content = .ok made) (other : Text) : (made.remove path).find other = t.find other := by
  obtain ⟨p, name, hsplit, hpath, hslash, hplace, rfl⟩ := write_ok h
  obtain ⟨way, hway, hwalk⟩ := split_ok hsplit
  have hagain : (t.withFile (p ++ [name]) content).split path = .ok (p, name) :=
    split_of_walk (by rw [← hway]; rfl) (walk_directories (fun q => directory_withFile content hplace) hwalk)
  have hnone := at_of_find_none hpath hslash hsplit hfree
  have hunreached : ¬t.Reached (p ++ [name]) := fun hreached => at_ne_none_iff.mpr hreached hnone
  simp only [remove, hagain, entries_withFile content hunreached]
  split
  next => rfl
  next => exact find_withDirectory (at_of_walk hwalk) other

end FileTree

end EnglishScript
