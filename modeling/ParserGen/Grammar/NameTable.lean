import Std.Data.TreeMap

/-!
# Numbered names

A table of distinct names in which each name is found by its number and each number by its name.

* `idOf?_eq_some_iff`: the two look-ups are inverse to each other.
* `mem_insertAll`, `name?_insertAll`: adding names adds exactly those and renumbers none.
-/

namespace ParserGen

/-- Distinct names, numbered from zero in order of arrival. -/
structure NameTable where
  names : Array String
  index : Std.TreeMap String Nat
  /-- The index gives each name its number. -/
  index_iff : ∀ (name : String) (i : Nat), index[name]? = some i ↔ names[i]? = some name

namespace NameTable

/-- The table without names. -/
def empty : NameTable :=
  ⟨#[], ∅, by simp⟩

instance : EmptyCollection NameTable := ⟨empty⟩

instance : Inhabited NameTable := ⟨empty⟩

/-- The number of names. -/
def size (t : NameTable) : Nat :=
  t.names.size

/-- The name with a number. -/
def name? (t : NameTable) (i : Nat) : Option String :=
  t.names[i]?

/-- The name with a number, empty if the number is not in use. -/
def name (t : NameTable) (i : Nat) : String :=
  t.names.getD i ""

/-- The number of a name. -/
def idOf? (t : NameTable) (name : String) : Option Nat :=
  t.index[name]?

/-- Whether the name is in the table. -/
def contains (t : NameTable) (name : String) : Bool :=
  (t.idOf? name).isSome

/-- The names in order. -/
def toList (t : NameTable) : List String :=
  t.names.toList

theorem index_insert_iff (t : NameTable) (new : String) (h : t.index[new]? = none) (name : String)
    (i : Nat) :
    (t.index.insert new t.names.size)[name]? = some i ↔ (t.names.push new)[i]? = some name := by
  rw [Std.TreeMap.getElem?_insert, Array.getElem?_push]
  simp only [Std.LawfulEqCmp.compare_eq_iff_eq]
  by_cases hn : new = name
  · subst hn
    simp only [if_true, Option.some.injEq]
    by_cases hi : i = t.names.size
    · simp [hi]
    · have : ¬ t.names.size = i := fun h => hi h.symm
      simp only [this, hi, if_false, false_iff]
      intro hc
      rw [(t.index_iff new i).2 hc] at h
      simp at h
  · simp only [if_neg hn]
    by_cases hi : i = t.names.size
    · subst hi
      simp only [if_true, Option.some.injEq, hn, iff_false]
      intro hc
      have := (t.index_iff name t.names.size).1 hc
      simp at this
    · simp only [if_neg hi]
      exact t.index_iff name i

/-- Adds a name at the end, unless it is there. -/
def insert : NameTable → String → NameTable
  | ⟨names, index, index_iff⟩, name =>
    if h : index[name]? = none then
      let number := names.size
      ⟨names.push name, index.insert name number, index_insert_iff ⟨names, index, index_iff⟩ name h⟩
    else ⟨names, index, index_iff⟩

/-- Adds several names in order. -/
def insertAll (t : NameTable) (names : List String) : NameTable :=
  names.foldl insert t

theorem idOf?_eq_some_iff {t : NameTable} {name : String} {i : Nat} :
    t.idOf? name = some i ↔ t.name? i = some name :=
  t.index_iff name i

/-- No name has two numbers. -/
theorem name?_inj {t : NameTable} {name : String} {i j : Nat} (hi : t.name? i = some name)
    (hj : t.name? j = some name) : i = j := by
  have h := idOf?_eq_some_iff.2 hi
  rw [idOf?_eq_some_iff.2 hj] at h
  exact (Option.some.inj h).symm

theorem lt_size_of_name? {t : NameTable} {name : String} {i : Nat} (h : t.name? i = some name) :
    i < t.size :=
  (Array.getElem?_eq_some_iff.1 h).1

theorem name?_of_lt {t : NameTable} {i : Nat} (h : i < t.size) : t.name? i = some (t.name i) := by
  have hi : i < t.names.size := h
  simp [name?, name, hi]

theorem name_eq {t : NameTable} {name : String} {i : Nat} (h : t.name? i = some name) :
    t.name i = name := by
  rw [name?_of_lt (lt_size_of_name? h)] at h
  exact Option.some.inj h

theorem mem_toList_iff {t : NameTable} {name : String} :
    name ∈ t.toList ↔ ∃ i, t.name? i = some name := by
  simp only [toList, name?, List.mem_iff_getElem?, Array.getElem?_toList]

/-- The names are distinct. -/
theorem nodup_toList (t : NameTable) : t.toList.Nodup := by
  rw [List.nodup_iff_pairwise_ne, List.pairwise_iff_getElem]
  intro i j hi hj hlt heq
  have hname : ∀ {k : Nat} (hk : k < t.toList.length), t.name? k = some t.toList[k] := fun hk => by
    simp [toList, name?]
  have hsame := name?_inj (hname hi) (heq ▸ hname hj)
  omega

theorem contains_iff {t : NameTable} {name : String} : t.contains name = true ↔ name ∈ t.toList := by
  simp only [contains, Option.isSome_iff_exists, idOf?_eq_some_iff, mem_toList_iff]

theorem toList_insert (t : NameTable) (name : String) :
    (t.insert name).toList = if t.contains name then t.toList else t.toList ++ [name] := by
  obtain ⟨names, index, index_iff⟩ := t
  by_cases h : index[name]? = none
  · simp [insert, toList, contains, idOf?, h]
  · have hs : index[name]?.isSome = true := Option.isSome_iff_ne_none.2 h
    simp [insert, toList, contains, idOf?, h, hs]

theorem mem_insert {t : NameTable} {new name : String} :
    name ∈ (t.insert new).toList ↔ name ∈ t.toList ∨ name = new := by
  rw [toList_insert]
  split
  · rename_i h
    have hm := contains_iff.1 h
    exact ⟨Or.inl, fun hn => hn.elim id fun e => e ▸ hm⟩
  · simp

theorem mem_insertAll {t : NameTable} {new : List String} {name : String} :
    name ∈ (t.insertAll new).toList ↔ name ∈ t.toList ∨ name ∈ new := by
  unfold insertAll
  induction new generalizing t with
  | nil => simp
  | cons a rest ih => rw [List.foldl_cons, ih, mem_insert, List.mem_cons, or_assoc]

/-- A name keeps its number when others are added. -/
theorem name?_insert {t : NameTable} {name : String} {i : Nat} (h : t.name? i = some name)
    (new : String) : (t.insert new).name? i = some name := by
  have hl : t.toList[i]? = some name := by simpa [toList, name?] using h
  have : (t.insert new).toList[i]? = some name := by
    rw [toList_insert]
    split
    · exact hl
    · rw [List.getElem?_append_left (List.getElem?_eq_some_iff.1 hl).1]
      exact hl
  simpa [toList, name?] using this

theorem name?_insertAll {t : NameTable} {name : String} {i : Nat} (h : t.name? i = some name)
    (new : List String) : (t.insertAll new).name? i = some name := by
  unfold insertAll
  induction new generalizing t with
  | nil => exact h
  | cons a rest ih => exact ih (name?_insert h a)

end NameTable

end ParserGen
