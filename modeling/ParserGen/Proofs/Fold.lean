import Mathlib.Data.List.Induction

/-!
# Folds that may fail

A table is made state by state, item by item and terminal by terminal, and a grammar file is applied
declaration by declaration. Each time a step may fail, and the first failure is the result.

* `foldlM_invariant`: what every step keeps, the fold keeps.
* `foldlM_cases`: **what a fold has done so far**, also where it fails.
* `foldlM_eq_ok_iff`: when a fold succeeds, if it is known when its steps do.
* `foldlM_transfer`, `foldlM_congr_of_invariant`: folds that agree.
-/

namespace ParserGen

theorem bind_eq_ok_iff {α β ε : Type} {x : Except ε α} {f : α → Except ε β} {b : β} :
    (x >>= f) = .ok b ↔ ∃ a, x = .ok a ∧ f a = .ok b := by
  cases x with
  | error e =>
    constructor
    · intro h
      cases h
    · rintro ⟨a, ha, -⟩
      cases ha
  | ok a =>
    constructor
    · intro h
      exact ⟨a, rfl, h⟩
    · rintro ⟨a', ha, h⟩
      cases ha
      exact h

theorem exists_of_bind_ok {α β ε : Type} {x : Except ε α} {f : α → Except ε β} {b : β}
    (h : (x >>= f) = .ok b) : ∃ a, x = .ok a ∧ f a = .ok b :=
  bind_eq_ok_iff.1 h

/-- What every step of a fold keeps, the fold keeps. -/
theorem foldlM_invariant {α β ε : Type} {f : β → α → Except ε β} {P : β → Prop} {l : List α}
    (hstep : ∀ b a b', a ∈ l → P b → f b a = .ok b' → P b') {b b' : β} (hb : P b)
    (h : l.foldlM f b = .ok b') : P b' := by
  induction l generalizing b with
  | nil => cases h; exact hb
  | cons a rest ih =>
    rw [List.foldlM_cons] at h
    obtain ⟨c, hf, h⟩ := exists_of_bind_ok h
    exact ih (fun b a b' ha => hstep b a b' (List.mem_cons_of_mem _ ha))
      (hstep b a c List.mem_cons_self hb hf) h

/-- A fold comes by each member of its list with what its steps keep, which may speak of the members
done so far. If it fails, it fails at one of them. -/
theorem foldlM_cases {α β ε : Type} {f : β → α → Except ε β} {P : List α → β → Prop} {l : List α}
    {b : β} (h0 : P [] b) (hstep : ∀ done a b b', done ++ [a] <+: l → P done b → f b a = .ok b' →
      P (done ++ [a]) b') :
    (∀ b', l.foldlM f b = .ok b' → P l b') ∧
      ∀ e, l.foldlM f b = .error e → ∃ done a b', done ++ [a] <+: l ∧ P done b' ∧ f b' a = .error e := by
  induction l using List.reverseRecOn with
  | nil =>
    refine ⟨fun b' h => ?_, fun e h => ?_⟩
    · cases h; exact h0
    · cases h
  | append_singleton l a ih =>
    obtain ⟨hok, herror⟩ := ih fun done x b b' hp =>
      hstep done x b b' (hp.trans (List.prefix_append l [a]))
    rw [List.foldlM_append]
    cases hl : l.foldlM f b with
    | error e' =>
      obtain ⟨done, x, b', hp, hb, hx⟩ := herror e' hl
      refine ⟨fun b' h => ?_, fun e h => ?_⟩
      · cases h
      · cases h
        exact ⟨done, x, b', hp.trans (List.prefix_append l [a]), hb, hx⟩
    | ok c =>
      have hc := hok c hl
      have hlast : ∀ r, (Except.ok c >>= fun b => List.foldlM f b [a]) = r → f c a = r := by
        intro r h
        rw [← h]
        cases hf : f c a with
        | error e => simp [bind, Except.bind, hf]
        | ok b' => simp [bind, Except.bind, pure, Except.pure, hf]
      exact ⟨fun b' h => hstep l a c b' List.prefix_rfl hc (hlast _ h),
        fun e h => ⟨l, a, c, List.prefix_rfl, hc, hlast _ h⟩⟩

/-- What holds at the end of a fold held at its beginning, if every step is such. -/
theorem of_foldl {α β : Type} {h : β → α → β} {B : β → Prop} (hB : ∀ b a, B (h b a) → B b) {l : List α}
    {b : β} (hl : B (l.foldl h b)) : B b := by
  induction l generalizing b with
  | nil => exact hl
  | cons a rest ih => exact hB b a (ih hl)

/-- A fold whose steps succeed on sound members of its list, and within a bound that only gets tighter,
succeeds if all members are sound and its end is within the bound. -/
theorem foldlM_eq_ok_iff {α β ε : Type} {f : β → α → Except ε β} {h : β → α → β} {S : α → Prop}
    {B : β → Prop} (hstep : ∀ b a b', B b → (f b a = .ok b' ↔ S a ∧ B (h b a) ∧ b' = h b a))
    (hB : ∀ b a, B (h b a) → B b) {l : List α} {b b' : β} (hb : B b) :
    l.foldlM f b = .ok b' ↔ (∀ a ∈ l, S a) ∧ B (l.foldl h b) ∧ b' = l.foldl h b := by
  induction l generalizing b with
  | nil =>
    constructor
    · intro hl
      cases hl
      exact ⟨by simp, hb, rfl⟩
    · rintro ⟨-, -, rfl⟩
      rfl
  | cons a rest ih =>
    rw [List.foldlM_cons, bind_eq_ok_iff, List.foldl_cons, List.forall_mem_cons]
    constructor
    · rintro ⟨c, hc, hrest⟩
      obtain ⟨hS, hBc, rfl⟩ := (hstep b a c hb).1 hc
      obtain ⟨hall, hend, rfl⟩ := (ih hBc).1 hrest
      exact ⟨⟨hS, hall⟩, hend, rfl⟩
    · rintro ⟨⟨hS, hall⟩, hend, rfl⟩
      have hBc := of_foldl hB hend
      exact ⟨h b a, (hstep b a _ hb).2 ⟨hS, hBc, rfl⟩, (ih hBc).2 ⟨hall, hend, rfl⟩⟩

/-- Two folds agree where every step of the first that ends in `Q` also starts in it and is one of the
second. -/
theorem foldlM_transfer {α β ε : Type} {f f' : β → α → Except ε β} {Q : β → Prop}
    (hstep : ∀ b a b', f b a = .ok b' → Q b' → Q b ∧ f' b a = .ok b') {l : List α} {b b' : β}
    (h : l.foldlM f b = .ok b') (hQ : Q b') : Q b ∧ l.foldlM f' b = .ok b' := by
  induction l generalizing b with
  | nil => cases h; exact ⟨hQ, rfl⟩
  | cons a rest ih =>
    rw [List.foldlM_cons] at h ⊢
    obtain ⟨c, hf, h⟩ := exists_of_bind_ok h
    obtain ⟨hc, hrest⟩ := ih h
    obtain ⟨hb, hf'⟩ := hstep b a c hf hc
    rw [hf']
    exact ⟨hb, hrest⟩

/-- Two folds agree where their steps do, on all that the first comes by. -/
theorem foldlM_congr_of_invariant {α β ε : Type} {f f' : β → α → Except ε β} {P : β → Prop}
    (hf : ∀ b a, P b → f' b a = f b a) (hstep : ∀ b a b', P b → f b a = .ok b' → P b') {l : List α}
    {b : β} (hb : P b) : l.foldlM f' b = l.foldlM f b := by
  induction l generalizing b with
  | nil => rfl
  | cons a rest ih =>
    rw [List.foldlM_cons, List.foldlM_cons, hf b a hb]
    cases hc : f b a with
    | error e => rfl
    | ok c => exact ih (hstep b a c hb hc)

theorem not_mem_of_prefix {α : Type} {l done : List α} {a : α} (hnd : l.Nodup)
    (h : done ++ [a] <+: l) : a ∉ done := by
  have hpart := hnd.sublist h.sublist
  rw [List.nodup_append] at hpart
  exact fun hm => hpart.2.2 a hm a List.mem_cons_self rfl

end ParserGen
