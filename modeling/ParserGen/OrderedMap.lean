/-!
# Maps that remember the order of insertion

An `OrderedMap` is a list of pairs with distinct keys. A new key goes to the end; writing to a key
that is already there keeps its place and replaces its value. Operator declarations, the rows of a
parse table and the table itself are all of this kind: their order shows in what is printed.

* `keys_insert`: the keys after a write.
* `find?_insert`, `find?_modify`: what is read after a write, and after a change.
* `ext_find?`: maps with the same keys in the same order, under which the same is read, are equal.
* `keys_ofList`, `find?_ofList_last`: the keys of a map made of a list, and what is read from it.
* `ofList_entries`: a map is the map of its entries.
-/

namespace ParserGen

namespace Entries

variable {κ ν : Type} [DecidableEq κ]

/-- Writes `v` at `k`: in place if `k` is there, at the end otherwise. -/
def put (k : κ) (v : ν) : List (κ × ν) → List (κ × ν)
  | [] => [(k, v)]
  | e :: rest => if e.1 = k then (k, v) :: rest else e :: put k v rest

/-- The value at `k`. -/
def get? (k : κ) : List (κ × ν) → Option ν
  | [] => none
  | e :: rest => if e.1 = k then some e.2 else get? k rest

theorem keys_put (k : κ) (v : ν) (l : List (κ × ν)) :
    (put k v l).map (·.1) =
      if k ∈ l.map (·.1) then l.map (·.1) else l.map (·.1) ++ [k] := by
  induction l with
  | nil => simp [put]
  | cons e rest ih =>
    by_cases h : e.1 = k
    · simp [put, h]
    · have h' : ¬ k = e.1 := fun hk => h hk.symm
      by_cases hm : k ∈ rest.map (·.1)
      · have hk : k ∈ (e :: rest).map (·.1) := List.mem_cons_of_mem _ hm
        rw [if_pos hm] at ih
        rw [if_pos hk]
        simp only [put, if_neg h, List.map_cons, ih]
      · have hk : ¬ k ∈ (e :: rest).map (·.1) := by
          simp only [List.map_cons, List.mem_cons, not_or]
          exact ⟨h', hm⟩
        rw [if_neg hm] at ih
        rw [if_neg hk]
        simp only [put, if_neg h, List.map_cons, ih, List.cons_append]

theorem put_of_not_mem {k : κ} (v : ν) {l : List (κ × ν)} (h : k ∉ l.map (·.1)) :
    put k v l = l ++ [(k, v)] := by
  induction l with
  | nil => rfl
  | cons e rest ih =>
    rw [List.map_cons, List.mem_cons, not_or] at h
    rw [put, if_neg (Ne.symm h.1), ih h.2, List.cons_append]

theorem nodup_put (k : κ) (v : ν) {l : List (κ × ν)} (h : (l.map (·.1)).Nodup) :
    ((put k v l).map (·.1)).Nodup := by
  rw [keys_put]
  split
  · exact h
  · rename_i hk
    rw [List.nodup_append]
    refine ⟨h, by simp, ?_⟩
    intro a ha b hb hab
    rw [List.mem_singleton] at hb
    subst hb; subst hab
    exact hk ha

theorem get?_put (k j : κ) (v : ν) (l : List (κ × ν)) :
    get? j (put k v l) = if k = j then some v else get? j l := by
  induction l with
  | nil => rfl
  | cons e rest ih =>
    by_cases h : e.1 = k
    · by_cases hj : k = j
      · simp [put, get?, h, hj]
      · simp [put, get?, h, hj]
    · by_cases hj : e.1 = j
      · have : ¬ k = j := fun hkj => h (hj.trans hkj.symm)
        simp only [put, if_neg h, get?, if_pos hj, if_neg this]
      · simp only [put, if_neg h, get?, if_neg hj, ih]

theorem get?_eq_some_iff {l : List (κ × ν)} (h : (l.map (·.1)).Nodup) (k : κ) (v : ν) :
    get? k l = some v ↔ (k, v) ∈ l := by
  induction l with
  | nil => simp [get?]
  | cons e rest ih =>
    obtain ⟨k', v'⟩ := e
    rw [List.map_cons, List.nodup_cons] at h
    rw [get?, List.mem_cons, Prod.mk.injEq]
    by_cases hk : k' = k
    · subst hk
      have hno : (k', v) ∉ rest := fun hm => h.1 (List.mem_map.2 ⟨(k', v), hm, rfl⟩)
      simp only [if_true, Option.some.injEq, true_and, hno, or_false]
      exact eq_comm
    · have hk' : ¬ k = k' := fun e => hk e.symm
      simp only [if_neg hk, ih h.2, hk', false_and, false_or]

omit [DecidableEq κ] in
theorem nodup_filter (p : κ × ν → Bool) {l : List (κ × ν)} (h : (l.map (·.1)).Nodup) :
    ((l.filter p).map (·.1)).Nodup :=
  List.Nodup.sublist (List.Sublist.map _ List.filter_sublist) h

end Entries

/-- Pairs with distinct keys, in the order in which the keys came. -/
structure OrderedMap (κ ν : Type) where
  /-- The pairs in order. -/
  entries : List (κ × ν)
  /-- No key stands twice. -/
  nodup : (entries.map (·.1)).Nodup

namespace OrderedMap

variable {κ ν : Type}

/-- The map without entries. -/
def empty : OrderedMap κ ν :=
  ⟨[], List.nodup_nil⟩

instance : EmptyCollection (OrderedMap κ ν) := ⟨empty⟩

instance : Inhabited (OrderedMap κ ν) := ⟨empty⟩

@[ext] theorem ext {m n : OrderedMap κ ν} (h : m.entries = n.entries) : m = n := by
  cases m; cases n
  cases h
  rfl

instance [DecidableEq κ] [DecidableEq ν] : DecidableEq (OrderedMap κ ν) := fun m n =>
  decidable_of_iff (m.entries = n.entries) ⟨ext, fun h => h ▸ rfl⟩

/-- The keys in order. -/
def keys (m : OrderedMap κ ν) : List κ :=
  m.entries.map (·.1)

/-- The number of entries. -/
def size (m : OrderedMap κ ν) : Nat :=
  m.entries.length

/-- Changes each value by a function of its key and itself. The keys and their order stay. -/
def mapValues {μ : Type} (f : κ → ν → μ) (m : OrderedMap κ ν) : OrderedMap κ μ :=
  ⟨m.entries.map fun e => (e.1, f e.1 e.2), by
    have : (m.entries.map fun e => (e.1, f e.1 e.2)).map (·.1) = m.entries.map (·.1) := by
      simp [Function.comp_def]
    rw [this]
    exact m.nodup⟩

variable [DecidableEq κ]

/-- The value at `k`. -/
def find? (m : OrderedMap κ ν) (k : κ) : Option ν :=
  Entries.get? k m.entries

/-- Whether `k` is a key. -/
def contains (m : OrderedMap κ ν) (k : κ) : Bool :=
  m.keys.contains k

/-- Writes `v` at `k`. -/
def insert (m : OrderedMap κ ν) (k : κ) (v : ν) : OrderedMap κ ν :=
  ⟨Entries.put k v m.entries, Entries.nodup_put k v m.nodup⟩

/-- Takes the entry of `k` out. The order of the others stays. -/
def erase (m : OrderedMap κ ν) (k : κ) : OrderedMap κ ν :=
  ⟨m.entries.filter fun e => decide (e.1 ≠ k), Entries.nodup_filter _ m.nodup⟩

/-- Applies `f` to the value at `k`, if there is one. -/
def modify (m : OrderedMap κ ν) (k : κ) (f : ν → ν) : OrderedMap κ ν :=
  m.mapValues fun j v => if j = k then f v else v

/-- The map of a list of pairs, written from left to right. -/
def ofList (l : List (κ × ν)) : OrderedMap κ ν :=
  l.foldl (fun m e => m.insert e.1 e.2) ∅

theorem keys_insert (m : OrderedMap κ ν) (k : κ) (v : ν) :
    (m.insert k v).keys = if k ∈ m.keys then m.keys else m.keys ++ [k] :=
  Entries.keys_put k v m.entries

theorem find?_insert (m : OrderedMap κ ν) (k j : κ) (v : ν) :
    (m.insert k v).find? j = if k = j then some v else m.find? j :=
  Entries.get?_put k j v m.entries

theorem find?_eq_some_iff (m : OrderedMap κ ν) (k : κ) (v : ν) :
    m.find? k = some v ↔ (k, v) ∈ m.entries :=
  Entries.get?_eq_some_iff m.nodup k v

theorem contains_iff (m : OrderedMap κ ν) (k : κ) : m.contains k = true ↔ ∃ v, m.find? k = some v := by
  unfold contains keys
  simp only [List.contains_iff_mem, List.mem_map, find?_eq_some_iff]
  constructor
  · rintro ⟨⟨j, v⟩, hm, rfl⟩
    exact ⟨v, hm⟩
  · rintro ⟨v, hm⟩
    exact ⟨(k, v), hm, rfl⟩

@[simp] theorem find?_empty (k : κ) : (∅ : OrderedMap κ ν).find? k = none :=
  rfl

/-- Writing what is there already changes nothing. -/
theorem insert_of_find? {m : OrderedMap κ ν} {k : κ} {v : ν} (h : m.find? k = some v) :
    m.insert k v = m := by
  have hput : ∀ l : List (κ × ν), Entries.get? k l = some v → Entries.put k v l = l := by
    intro l
    induction l with
    | nil => intro hl; cases hl
    | cons e rest ih =>
      intro hl
      unfold Entries.get? at hl
      unfold Entries.put
      by_cases he : e.1 = k
      · rw [if_pos he] at hl ⊢
        rw [← he, ← Option.some.inj hl]
      · rw [if_neg he] at hl ⊢
        rw [ih hl]
  exact ext (hput m.entries h)

/-- Two maps are equal if they have the same keys in the same order, and the same is read under each. -/
theorem ext_find? {m n : OrderedMap κ ν} (hkeys : m.keys = n.keys)
    (hfind : ∀ k, m.find? k = n.find? k) : m = n := by
  have hlist : ∀ l l' : List (κ × ν), (l.map (·.1)).Nodup → l.map (·.1) = l'.map (·.1) →
      (∀ k, Entries.get? k l = Entries.get? k l') → l = l' := by
    intro l
    induction l with
    | nil =>
      intro l' _ hk _
      rw [List.map_nil] at hk
      exact (List.map_eq_nil_iff.1 hk.symm).symm
    | cons e rest ih =>
      intro l' hnd hk hf
      cases l' with
      | nil => cases hk
      | cons e' rest' =>
        rw [List.map_cons, List.map_cons, List.cons.injEq] at hk
        rw [List.map_cons, List.nodup_cons] at hnd
        have hhead := hf e.1
        unfold Entries.get? at hhead
        rw [if_pos rfl, if_pos hk.1.symm] at hhead
        have he : e = e' := Prod.ext hk.1 (Option.some.inj hhead)
        refine List.cons_eq_cons.2 ⟨he, ih rest' hnd.2 hk.2 fun k => ?_⟩
        by_cases hke : e.1 = k
        · -- the first key stands in neither rest
          have hno : ∀ r : List (κ × ν), r.map (·.1) = rest.map (·.1) → Entries.get? k r = none := by
            intro r hr
            have hnd' : (r.map (·.1)).Nodup := hr ▸ hnd.2
            refine Option.eq_none_iff_forall_not_mem.2 fun v hv => hnd.1 ?_
            rw [hke, ← hr]
            exact List.mem_map.2 ⟨(k, v), (Entries.get?_eq_some_iff hnd' k v).1 hv, rfl⟩
          rw [hno rest rfl, hno rest' hk.2.symm]
        · have hrest := hf k
          unfold Entries.get? at hrest
          rwa [if_neg hke, if_neg (hk.1 ▸ hke)] at hrest
  exact ext (hlist m.entries n.entries m.nodup hkeys hfind)

theorem find?_erase (m : OrderedMap κ ν) (k j : κ) :
    (m.erase k).find? j = if k = j then none else m.find? j := by
  refine Option.ext fun v => ?_
  rw [find?_eq_some_iff]
  unfold erase
  rw [List.mem_filter, ← find?_eq_some_iff]
  by_cases h : k = j
  · simp [h]
  · simp [h, Ne.symm h]

omit [DecidableEq κ] in
@[simp] theorem keys_mapValues {μ : Type} (f : κ → ν → μ) (m : OrderedMap κ ν) :
    (m.mapValues f).keys = m.keys := by
  simp [keys, mapValues, Function.comp_def]

theorem find?_mapValues {μ : Type} (f : κ → ν → μ) (m : OrderedMap κ ν) (k : κ) :
    (m.mapValues f).find? k = (m.find? k).map (f k) := by
  have hget : ∀ l : List (κ × ν), Entries.get? k (l.map fun e => (e.1, f e.1 e.2)) =
      (Entries.get? k l).map (f k) := by
    intro l
    induction l with
    | nil => rfl
    | cons e rest ih =>
      rw [List.map_cons]
      unfold Entries.get?
      by_cases he : e.1 = k
      · simp [he]
      · simp [he, ih]
  exact hget m.entries

/-- Changing no value changes nothing. -/
theorem mapValues_eq_self {f : κ → ν → ν} {m : OrderedMap κ ν}
    (h : ∀ k v, m.find? k = some v → f k v = v) : m.mapValues f = m := by
  refine ext_find? (keys_mapValues f m) fun k => ?_
  rw [find?_mapValues]
  cases hv : m.find? k with
  | none => rfl
  | some v => rw [Option.map_some, h k v hv]

@[simp] theorem keys_modify (m : OrderedMap κ ν) (k : κ) (f : ν → ν) : (m.modify k f).keys = m.keys :=
  keys_mapValues _ m

theorem find?_modify (m : OrderedMap κ ν) (k j : κ) (f : ν → ν) :
    (m.modify k f).find? j = if j = k then (m.find? j).map f else m.find? j := by
  unfold modify
  rw [find?_mapValues]
  by_cases h : j = k
  · simp [h]
  · simp [h]

/-! ## One value under several keys -/

theorem find?_foldl_insert_const (names : List κ) (v : ν) (m : OrderedMap κ ν) (k : κ) :
    (names.foldl (fun m name => m.insert name v) m).find? k =
      if k ∈ names then some v else m.find? k := by
  induction names generalizing m with
  | nil => simp
  | cons name rest ih =>
    rw [List.foldl_cons, ih, find?_insert]
    by_cases hk : k ∈ rest
    · simp [hk]
    · by_cases hname : name = k
      · simp [hk, hname]
      · simp [hk, hname, Ne.symm hname]

/-- Writing a value at some keys changes nothing exactly if it is there already. -/
theorem foldl_insert_const_eq_iff {names : List κ} {v : ν} {m : OrderedMap κ ν} :
    names.foldl (fun m name => m.insert name v) m = m ↔ ∀ name ∈ names, m.find? name = some v := by
  constructor
  · intro h name hname
    have hfind := find?_foldl_insert_const names v m name
    rwa [h, if_pos hname] at hfind
  · intro h
    induction names with
    | nil => rfl
    | cons name rest ih =>
      rw [List.foldl_cons, insert_of_find? (h name List.mem_cons_self)]
      exact ih fun name' hm => h name' (List.mem_cons_of_mem name hm)

/-- The keys do not depend on the values. -/
theorem keys_foldl_insert_congr {names : List κ} {v w : ν} {m n : OrderedMap κ ν}
    (h : m.keys = n.keys) : (names.foldl (fun m name => m.insert name v) m).keys =
      (names.foldl (fun m name => m.insert name w) n).keys := by
  induction names generalizing m n with
  | nil => exact h
  | cons name rest ih =>
    refine ih ?_
    rw [keys_insert, keys_insert, h]

theorem keys_foldl_modify (names : List κ) (f : ν → ν) (m : OrderedMap κ ν) :
    (names.foldl (fun m name => m.modify name f) m).keys = m.keys := by
  induction names generalizing m with
  | nil => rfl
  | cons name rest ih => rw [List.foldl_cons, ih, keys_modify]

theorem find?_foldl_modify {names : List κ} {f : ν → ν} (hf : ∀ v, f (f v) = f v)
    (m : OrderedMap κ ν) (k : κ) : (names.foldl (fun m name => m.modify name f) m).find? k =
      if k ∈ names then (m.find? k).map f else m.find? k := by
  induction names generalizing m with
  | nil => simp
  | cons name rest ih =>
    rw [List.foldl_cons, ih, find?_modify]
    by_cases hname : k = name
    · subst hname
      by_cases hk : k ∈ rest
      · simp [hk, Function.comp_def, hf]
      · simp [hk]
    · simp [hname]

/-- Changing a value right after it was written is writing the changed value. -/
theorem foldl_modify_foldl_insert (names : List κ) {f : ν → ν} (hf : ∀ v, f (f v) = f v) (v : ν)
    (m : OrderedMap κ ν) : names.foldl (fun m name => m.modify name f)
        (names.foldl (fun m name => m.insert name v) m) =
      names.foldl (fun m name => m.insert name (f v)) m := by
  refine ext_find? ?_ fun k => ?_
  · rw [keys_foldl_modify]
    exact keys_foldl_insert_congr rfl
  · rw [find?_foldl_modify hf, find?_foldl_insert_const, find?_foldl_insert_const]
    split <;> rfl

/-! ## Maps made of a list -/

/-- New keys come in the order in which they are written first. -/
theorem keys_foldl_insert (l : List (κ × ν)) (m : OrderedMap κ ν) :
    (l.foldl (fun m e => m.insert e.1 e.2) m).keys =
      m.keys ++ ((l.map (·.1)).removeAll m.keys).eraseDups := by
  induction l generalizing m with
  | nil => simp [List.removeAll]
  | cons e rest ih =>
    rw [List.foldl_cons, ih, keys_insert, List.map_cons, List.cons_removeAll]
    by_cases he : e.1 ∈ m.keys
    · simp [he]
    · have hrest : (rest.map (·.1)).removeAll (m.keys ++ [e.1]) =
          ((rest.map (·.1)).removeAll m.keys).filter fun k => !k == e.1 := by
        unfold List.removeAll
        rw [List.filter_filter]
        refine List.filter_congr fun k _ => ?_
        by_cases hk : k = e.1
        · simp [hk]
        · simp [hk]
      simp [he, hrest, List.eraseDups_cons]

theorem keys_ofList (l : List (κ × ν)) : (ofList l).keys = (l.map (·.1)).eraseDups := by
  have hnil : (l.map (·.1)).removeAll [] = l.map (·.1) := List.filter_eq_self.2 fun k _ => rfl
  have hkeys := keys_foldl_insert l ∅
  rwa [show (∅ : OrderedMap κ ν).keys = [] from rfl, List.nil_append, hnil] at hkeys

/-- What is read was written last. -/
theorem find?_foldl_insert_last (l : List (κ × ν)) (m : OrderedMap κ ν) (k : κ) :
    (l.foldl (fun m e => m.insert e.1 e.2) m).find? k =
      (((l.filter fun e => decide (e.1 = k)).getLast?).map (·.2)).or (m.find? k) := by
  induction l generalizing m with
  | nil => rfl
  | cons e rest ih =>
    rw [List.foldl_cons, ih, find?_insert, List.filter_cons]
    by_cases he : e.1 = k
    · rw [if_pos he, if_pos (by simpa using he), List.getLast?_cons]
      cases (rest.filter fun e => decide (e.1 = k)).getLast? <;> rfl
    · rw [if_neg he, if_neg (by simpa using he)]

theorem find?_ofList_last (l : List (κ × ν)) (k : κ) :
    (ofList l).find? k = ((l.filter fun e => decide (e.1 = k)).getLast?).map (·.2) := by
  unfold ofList
  rw [find?_foldl_insert_last, find?_empty, Option.or_none]

theorem find?_foldl_insert {l : List (κ × ν)} {m : OrderedMap κ ν} {k : κ} {v : ν}
    (h : (l.foldl (fun m e => m.insert e.1 e.2) m).find? k = some v) :
    (k, v) ∈ l ∨ m.find? k = some v := by
  induction l generalizing m with
  | nil => exact Or.inr h
  | cons e rest ih =>
    rcases ih h with hm | hm
    · exact Or.inl (List.mem_cons_of_mem e hm)
    · rw [find?_insert] at hm
      split at hm
      · rename_i hk
        cases hm
        exact Or.inl (List.mem_cons.2 (Or.inl (by rw [← hk])))
      · exact Or.inr hm

theorem isSome_foldl_insert {l : List (κ × ν)} {m : OrderedMap κ ν} {k : κ}
    (h : k ∈ l.map (·.1) ∨ (m.find? k).isSome = true) :
    ((l.foldl (fun m e => m.insert e.1 e.2) m).find? k).isSome = true := by
  induction l generalizing m with
  | nil => exact h.resolve_left (by simp)
  | cons e rest ih =>
    refine ih ?_
    rw [find?_insert]
    split
    · exact Or.inr rfl
    · rename_i hk
      refine h.imp_left fun hm => ?_
      rw [List.map_cons, List.mem_cons] at hm
      exact hm.resolve_left fun e => hk e.symm

/-- What is read was written. -/
theorem mem_of_find?_ofList {l : List (κ × ν)} {k : κ} {v : ν} (h : (ofList l).find? k = some v) :
    (k, v) ∈ l :=
  (find?_foldl_insert h).resolve_right (by simp)

/-- What was written is read, if nothing else was written to its key. -/
theorem find?_ofList {l : List (κ × ν)} {k : κ} {v : ν} (hm : (k, v) ∈ l)
    (hv : ∀ w, (k, w) ∈ l → w = v) : (ofList l).find? k = some v := by
  have hsome : ((ofList l).find? k).isSome = true :=
    isSome_foldl_insert (Or.inl (List.mem_map.2 ⟨(k, v), hm, rfl⟩))
  obtain ⟨w, hw⟩ := Option.isSome_iff_exists.1 hsome
  rw [hw, hv w (mem_of_find?_ofList hw)]

theorem entries_foldl_insert {l : List (κ × ν)} {m : OrderedMap κ ν}
    (h : ((m.entries ++ l).map (·.1)).Nodup) :
    (l.foldl (fun m e => m.insert e.1 e.2) m).entries = m.entries ++ l := by
  induction l generalizing m with
  | nil => simp
  | cons e rest ih =>
    have hnew : e.1 ∉ m.entries.map (·.1) := by
      rw [List.map_append, List.map_cons, List.nodup_append] at h
      exact fun hm => h.2.2 _ hm _ List.mem_cons_self rfl
    have hentries : (m.insert e.1 e.2).entries = m.entries ++ [e] := Entries.put_of_not_mem e.2 hnew
    rw [List.foldl_cons, ih (by rw [hentries]; simpa using h), hentries]
    simp

/-- A map is the map of its entries. -/
theorem ofList_entries (m : OrderedMap κ ν) : ofList m.entries = m :=
  ext (entries_foldl_insert (m := ∅) m.nodup)

end OrderedMap

end ParserGen
