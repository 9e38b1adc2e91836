import ParserGen.Proofs.Pattern.Relocation

/-!
# Alternatives match in their order

The program of alternatives tries these one after the other, in the part of its code that belongs to each.
So it finds what the first of them finds that matches at all, and a group around some of them tells
whether the match is one of theirs.

* `Below`, `below_compile`: code does not lead behind itself.
* `best_alternatives`: **a thread comes to what the first alternative comes to that matches.**
* `best_joined`: the same with a group around the first alternatives.
* `search_firstFrom`: a search finds the first place where there is such a match.
-/

namespace ParserGen.Pattern

/-- Alternatives in their order. -/
def Expr.alternatives : List Expr → Expr
  | [] => .empty
  | [r] => r
  | r :: s :: rs => .alt r (alternatives (s :: rs))

/-- Alternatives, the first of them in a group. -/
def Expr.joined (name : String) (rs ss : List Expr) : Expr :=
  .alternatives (.group name (.alternatives rs) :: ss)

/-- The code with which every program begins. -/
def Code.initial : Code :=
  (Code.push { instrs := #[], groups := #[] } .accept).2

/-- The code behind the contents of a group that is the first one of a program. -/
def Code.opened (name : String) : Code :=
  (Code.push { Code.initial with groups := #[name] } (.mark 1 0)).2

namespace Program

variable {p : Program} {text : List Char} {before : Option Char} {pos next last : Nat} {code : Code}
  {r s : Expr} {name : String} {t : Thread}

/-! ## Code does not lead behind itself -/

theorem size_le_compile (r : Expr) (next : Nat) (code : Code) :
    code.instrs.size ≤ (r.compile next code).2.instrs.size :=
  (lays_compile r).grows next code

/-- Code that stands in a program stands there up to what was laid down first. -/
theorem within_of_compile (h : Within (r.compile next code).2 0 p.instrs) : Within code 0 p.instrs :=
  fun i _ hi => by
    rw [h i (Nat.zero_le i) (Nat.lt_of_lt_of_le hi (size_le_compile r next code)),
      (lays_compile r).keeps next code i hi]

theorem within_of_push {instr : Instr} (h : Within (code.push instr).2 0 p.instrs) :
    Within code 0 p.instrs ∧ p.instrs[code.instrs.size]? = some instr := by
  refine ⟨fun i _ hi => ?_, ?_⟩
  · rw [h i (Nat.zero_le i) (by rw [size_push]; omega), getElem?_push_of_lt hi]
  · rw [h _ (Nat.zero_le _) (by rw [size_push]; omega), getElem?_push_last]

/-- The first instructions lead to no others. -/
def Below (p : Program) (n : Nat) : Prop :=
  ∀ holds, p.Encloses holds {i | i < n}

/-- So do they with an instruction behind them that notes a place and goes on at one of them. -/
theorem Below.mark {n slot : Nat} (h : p.Below n) (hmark : p.instrs[n]? = some (.mark slot next))
    (hnext : next < n) : p.Below (n + 1) := by
  intro holds i hi js hjs j hj
  have hi : i < n + 1 := hi
  by_cases hlt : i < n
  · exact Nat.lt_succ_of_lt (h holds i hlt js hjs j hj)
  · obtain rfl : i = n := by omega
    unfold exits? at hjs
    rw [hmark] at hjs
    cases hjs
    rw [List.mem_singleton.1 hj]
    exact Nat.lt_succ_of_lt hnext

theorem exists_of_mem_forall₂ {α β : Type} {R : α → β → Prop} {l : List α} {l' : List β}
    (h : List.Forall₂ R l l') {a : α} (ha : a ∈ l) : ∃ b, R a b := by
  induction h with
  | nil => cases ha
  | cons hab _ ih =>
    rcases List.mem_cons.1 ha with rfl | ha
    · exact ⟨_, hab⟩
    · exact ih ha

/-- Alike instructions lead to places that correspond to some. -/
theorem exits?_of_alike {R : Nat → Nat → Prop} {slot i : Nat} {a b : Instr}
    {holds : Assertion → Bool} (hi : p.instrs[i]? = some a) (ha : Alike R slot a b) {js : List Nat}
    (hjs : p.exits? holds i = some js) : ∀ j ∈ js, ∃ j', R j j' := by
  unfold exits? at hjs
  rw [hi] at hjs
  cases ha with
  | char _ => cases hjs
  | fork his _ =>
    cases hjs
    exact fun j hj => exists_of_mem_forall₂ his hj
  | @assertion a i i' h =>
    cases hjs
    intro j hj
    by_cases ha : holds a = true
    · rw [if_pos ha] at hj
      exact ⟨i', List.mem_singleton.1 hj ▸ h⟩
    · rw [if_neg ha] at hj
      cases hj
  | mark _ h =>
    cases hjs
    intro j hj
    exact ⟨_, List.mem_singleton.1 hj ▸ h⟩

theorem alike_at {slot next' n' size j : Nat} {laid laid' : Nat × Code}
    (h : Moved slot next next' code.instrs.size n' laid laid' size) (hj : j < size) :
    ∃ a b, laid.2.instrs[code.instrs.size + j]? = some a ∧ laid'.2.instrs[n' + j]? = some b ∧
      Alike (Shifts next next' code.instrs.size n' size) slot a b := by
  have hrel := h.alike j hj
  have hlt : code.instrs.size + j < laid.2.instrs.size := by rw [h.grown]; omega
  rw [Array.getElem?_eq_getElem hlt] at hrel ⊢
  cases hb : laid'.2.instrs[n' + j]? with
  | none =>
    rw [hb] at hrel
    cases hrel
  | some b =>
    rw [hb] at hrel
    cases hrel with
    | some h => exact ⟨_, b, rfl, rfl, h⟩

/-- **The code of an expression does not lead behind itself.** -/
theorem below_compile (hnext : next < code.instrs.size) (hbelow : p.Below code.instrs.size)
    (hin : Within (r.compile next code).2 0 p.instrs) :
    p.Below (r.compile next code).2.instrs.size ∧
      (r.compile next code).1 < (r.compile next code).2.instrs.size := by
  obtain ⟨size, hmoved⟩ := (uniform_compile r).moved next next code code
  rw [hmoved.grown]
  refine ⟨fun holds i hi js hjs j hj => ?_, hmoved.start.lt hnext⟩
  have hi : i < code.instrs.size + size := hi
  by_cases hlt : i < code.instrs.size
  · have := hbelow holds i hlt js hjs j hj
    exact Nat.lt_of_lt_of_le this (Nat.le_add_right _ size)
  · obtain ⟨k, rfl⟩ : ∃ k, i = code.instrs.size + k := ⟨i - code.instrs.size, by omega⟩
    obtain ⟨a, b, ha, -, halike⟩ := alike_at hmoved (j := k) (by omega)
    have hp : p.instrs[code.instrs.size + k]? = some a := by
      rw [hin _ (Nat.zero_le _) (by rw [hmoved.grown]; omega), ha]
    obtain ⟨j', hR⟩ := exits?_of_alike hp halike hjs j hj
    exact hR.lt hnext

/-- No instruction of the program of an expression starts more than two threads. -/
theorem binary_program (r : Expr) : r.program.Binary := by
  obtain ⟨size, hmoved⟩ := (uniform_compile r).moved 0 0 Code.initial Code.initial
  have hsize : r.program.instrs.size = 1 + size := hmoved.grown
  intro i targets hi
  have hlt : i < 1 + size := hsize ▸ (Array.getElem?_eq_some_iff.1 hi).1
  by_cases hzero : i = 0
  · subst hzero
    have haccept : r.program.instrs[0]? = some .accept :=
      (lays_compile r).keeps 0 Code.initial 0 Nat.zero_lt_one
    rw [haccept] at hi
    cases hi
  · obtain ⟨j, rfl⟩ : ∃ j, i = 1 + j := ⟨i - 1, by omega⟩
    obtain ⟨a, b, ha, -, halike⟩ := alike_at hmoved (j := j) (by omega)
    have hi' : (r.compile 0 Code.initial).2.instrs[1 + j]? = some (.fork targets) := hi
    rw [show Code.initial.instrs.size = 1 from rfl] at ha
    rw [ha] at hi'
    cases hi'
    cases halike with
    | fork _ hlen => exact hlen

/-! ## Alternatives one after the other -/

/-- A thread at a place that leads to places below it, without reading, comes to what those come to. -/
theorem best_of_below (hb : p.Binary) {n : Nat} (hbelow : p.Below n) {ts : List Thread}
    (hplace : n ≤ t.place) (hmoves : p.moves? (Assertion.holds before text.head?) pos t = some ts)
    (hts : ∀ u ∈ ts, u.place < n) :
    p.best text before pos t = ts.findSome? (p.best text before pos) :=
  best_of_moves hb hmoves (hbelow _) hts (Nat.not_lt.2 hplace)

/-- **A thread comes to what the first alternative comes to, or else the second.** -/
theorem best_alt (hb : p.Binary) (hnext : next < code.instrs.size) (hbelow : p.Below code.instrs.size)
    (hin : Within ((Expr.alt r s).compile next code).2 0 p.instrs) (t : Thread) (text : List Char)
    (before : Option Char) (pos : Nat) :
    p.best text before pos { t with place := ((Expr.alt r s).compile next code).1 } =
      (p.best text before pos { t with place := (r.compile next code).1 }).or
        (p.best text before pos { t with place := (s.compile next (r.compile next code).2).1 }) := by
  obtain ⟨hsecond, hfork⟩ := within_of_push hin
  have hfirst := within_of_compile hsecond
  obtain ⟨hbelow₁, hstart₁⟩ := below_compile hnext hbelow hfirst
  have hle := size_le_compile r next code
  have hle' := size_le_compile s next (r.compile next code).2
  obtain ⟨hbelow₂, hstart₂⟩ := below_compile (by omega) hbelow₁ hsecond
  have hmoves : p.moves? (Assertion.holds before text.head?) pos
      { t with place := ((Expr.alt r s).compile next code).1 } =
      some [{ t with place := (r.compile next code).1 },
        { t with place := (s.compile next (r.compile next code).2).1 }] := by
    unfold moves?
    rw [show p.instrs[((Expr.alt r s).compile next code).1]? = _ from hfork]
    rfl
  rw [best_of_below hb hbelow₂ (Nat.le_refl _) hmoves]
  · rw [findSome?_cons_or, findSome?_cons_or, List.findSome?_nil, Option.or_none]
  · simp only [List.forall_mem_cons]
    exact ⟨Nat.lt_of_lt_of_le hstart₁ hle', hstart₂, by simp⟩

section Alternatives

variable {γ : Type} {rel : Match → γ → Prop} {F : Expr → Option γ}

/-- **A thread comes to what the first of some alternatives comes to that matches.** -/
theorem best_alternatives (hb : p.Binary) {rs : List Expr} (hne : rs ≠ [])
    (hnext : next < code.instrs.size) (hbelow : p.Below code.instrs.size)
    (hin : Within ((Expr.alternatives rs).compile next code).2 0 p.instrs) (t : Thread)
    (hF : ∀ r ∈ rs, ∀ code', code.instrs.size ≤ code'.instrs.size → code.groups.size ≤ code'.groups.size →
      Within (r.compile next code').2 0 p.instrs →
      Option.Rel rel (p.best text before pos { t with place := (r.compile next code').1 }) (F r)) :
    Option.Rel rel
      (p.best text before pos { t with place := ((Expr.alternatives rs).compile next code).1 })
      (rs.findSome? F) := by
  induction rs generalizing code with
  | nil => exact absurd rfl hne
  | cons r rs ih =>
    obtain ⟨hr, hrs⟩ := List.forall_mem_cons.1 hF
    cases rs with
    | nil =>
      rw [findSome?_cons_or, List.findSome?_nil, Option.or_none]
      exact hr code (Nat.le_refl _) (Nat.le_refl _) hin
    | cons s rs =>
      have hsecond := (within_of_push hin).1
      have hfirst := within_of_compile hsecond
      have hle := size_le_compile r next code
      have hgroups := (uniform_compile r).groups_le next code
      obtain ⟨hbelow₁, -⟩ := below_compile hnext hbelow hfirst
      rw [Expr.alternatives, best_alt hb hnext hbelow hin, findSome?_cons_or]
      refine rel_or (hr code (Nat.le_refl _) (Nat.le_refl _) hfirst) ?_
      exact ih (List.cons_ne_nil s rs) (by omega) hbelow₁ hsecond fun x hx code' hsize hgroups' =>
        hrs x hx code' (by omega) (by omega)

end Alternatives

/-! ## Expressions as parts of a program -/

/-- The match of an expression alone that begins here. -/
def matchHere (r : Expr) (text : List Char) (before : Option Char) (pos : Nat) : Option Match :=
  r.program.best text before pos (r.program.fresh pos)

/-- The code of an expression in a program mirrors the program of the expression. -/
theorem mirrors_compile (hnext : next < code.instrs.size) (hgroups : 0 < code.groups.size)
    (hin : Within (r.compile next code).2 0 p.instrs) :
    ∃ R : Nat → Nat → Prop, Mirrors p r.program R next ∧ R (r.compile next code).1 r.program.start ∧
      ∀ i i', R i i' → i = next ∨ code.instrs.size ≤ i := by
  obtain ⟨size, hmoved⟩ := (uniform_compile r).moved next 0 code Code.initial
  have hone : Code.initial.instrs.size = 1 := rfl
  rw [hone] at hmoved
  refine ⟨Shifts next 0 code.instrs.size 1 size, ⟨?_, ?_, ?_⟩, hmoved.start, ?_⟩
  · rintro i i' j j' (⟨rfl, rfl⟩ | ⟨a, ha, rfl, rfl⟩) (⟨rfl, rfl⟩ | ⟨b, hb, rfl, rfl⟩) <;> omega
  · rintro i' (⟨-, rfl⟩ | ⟨j, hj, rfl, -⟩)
    · exact (lays_compile r).keeps 0 Code.initial 0 Nat.zero_lt_one
    · omega
  · rintro i i' (⟨rfl, -⟩ | ⟨j, hj, rfl, rfl⟩) hne
    · exact absurd rfl hne
    · obtain ⟨a, b, ha, hb, halike⟩ := alike_at hmoved hj
      refine ⟨a, b, ?_, hb, halike.mono (fun _ _ h => h) (by omega)⟩
      rw [hin _ (Nat.zero_le _) (by rw [hmoved.grown]; omega), ha]
  · rintro i i' (⟨rfl, -⟩ | ⟨j, hj, rfl, -⟩)
    · exact Or.inl rfl
    · exact Or.inr (Nat.le_add_right _ j)

/-- **A thread that begins with the code of an expression comes to the match of the expression alone.** -/
theorem best_part (hb : p.Binary) (hnext : next < code.instrs.size) (hlast : last < code.instrs.size)
    (hgroups : 0 < code.groups.size) (hin : Within (r.compile next code).2 0 p.instrs) {noted : Bool}
    (hleads : (noted = false ∧ last = next) ∨ noted = true ∧ p.instrs[next]? = some (.mark 1 last))
    (haccept : p.instrs[last]? = some .accept) {first second : Option Nat} (hstart : t.start = pos)
    (hfirst : t.marks[0]? = some first) (hsecond : t.marks[1]? = some second)
    (text : List Char) (before : Option Char) :
    Option.Rel (SameMatch pos first second noted)
      (p.best text before pos { t with place := (r.compile next code).1 })
      (matchHere r text before pos) := by
  obtain ⟨R, hmirrors, hR, hplaces⟩ := mirrors_compile hnext hgroups hin
  have hfollows : Follows R pos first second { t with place := (r.compile next code).1 }
      (r.program.fresh pos) := ⟨hR, hstart, rfl, hfirst, hsecond⟩
  refine hmirrors.best hb (binary_program r) ⟨hleads, haccept, fun i' hi => ?_⟩ hfollows text before pos
  rcases hplaces last i' hi with heq | hle
  · exact heq
  · omega

/-- The code of a group notes the place and goes on with the code of its contents. -/
theorem best_group (hb : p.Binary) (hnext : next < code.instrs.size) (hbelow : p.Below code.instrs.size)
    (hin : Within ((Expr.group name r).compile next code).2 0 p.instrs) (t : Thread) (text : List Char)
    (before : Option Char) (pos : Nat) :
    let stop := Code.push { code with groups := code.groups.push name }
      (.mark (2 * code.groups.size + 1) next)
    Within (r.compile stop.1 stop.2).2 0 p.instrs ∧
      p.instrs[stop.1]? = some (.mark (2 * code.groups.size + 1) next) ∧
      p.best text before pos { t with place := ((Expr.group name r).compile next code).1 } =
        p.best text before pos { t with
          place := (r.compile stop.1 stop.2).1
          marks := t.marks.setIfInBounds (2 * code.groups.size) (some pos) } := by
  intro stop
  obtain ⟨hbody, hmark⟩ := within_of_push hin
  obtain ⟨-, hstop⟩ := within_of_push (within_of_compile hbody)
  have hbelow₁ : p.Below stop.2.instrs.size := by
    rw [show stop.2.instrs.size = code.instrs.size + 1 from size_push]
    exact hbelow.mark hstop hnext
  have hnext₁ : stop.1 < stop.2.instrs.size := by
    rw [show stop.2.instrs.size = code.instrs.size + 1 from size_push]
    exact Nat.lt_succ_self _
  obtain ⟨hbelow₂, hstart⟩ := below_compile hnext₁ hbelow₁ hbody
  have hmoves : p.moves? (Assertion.holds before text.head?) pos
      { t with place := ((Expr.group name r).compile next code).1 } =
      some [{ t with
        place := (r.compile stop.1 stop.2).1
        marks := t.marks.setIfInBounds (2 * code.groups.size) (some pos) }] := by
    unfold moves?
    rw [show p.instrs[((Expr.group name r).compile next code).1]? = _ from hmark]
    rfl
  refine ⟨hbody, hstop, ?_⟩
  rw [best_of_below hb hbelow₂ (Nat.le_refl _) hmoves]
  · rw [findSome?_cons_or, List.findSome?_nil, Option.or_none]
  · exact List.forall_mem_singleton.2 hstart

/-! ## Alternatives with a group around the first of them -/

/-- The match of the first expression that matches here, and whether it is among the first ones. -/
def choice (rs ss : List Expr) (text : List Char) (before : Option Char) (pos : Nat) :
    Option (Match × Bool) :=
  (rs.findSome? fun r => (matchHere r text before pos).map (·, true)).or
    (ss.findSome? fun s => (matchHere s text before pos).map (·, false))

/-- The first group of a match tells whether the match is that of one of the first expressions. -/
structure Tells (m : Match) (s : Match × Bool) : Prop where
  start : m.start = s.1.start
  stop : m.stop = s.1.stop
  first : m.marks[0]? = some (if s.2 then some m.start else none)
  second : m.marks[1]? = some (if s.2 then some m.stop else none)

theorem rel_map {α β γ : Type} {R : α → β → Prop} {R' : α → γ → Prop} {f : β → γ} {x : Option α}
    {y : Option β} (h : Option.Rel R x y) (hf : ∀ a b, R a b → R' a (f b)) :
    Option.Rel R' x (y.map f) := by
  cases h with
  | some h => exact .some (hf _ _ h)
  | none => exact .none

theorem below_initial (haccept : p.instrs[0]? = some .accept) : p.Below Code.initial.instrs.size := by
  intro holds i hi js hjs
  obtain rfl : i = 0 := Nat.lt_one_iff.1 hi
  unfold exits? at hjs
  rw [haccept] at hjs
  cases hjs

variable {rs ss : List Expr}

/-- The group matches what the first of its alternatives matches. -/
theorem best_first (hb : p.Binary) (hrs : rs ≠ [])
    (hin : Within ((Expr.group name (.alternatives rs)).compile 0 Code.initial).2 0 p.instrs)
    (hstart : t.start = pos) (hsecond : t.marks[1]? = some none) :
    Option.Rel Tells
      (p.best text before pos
        { t with place := ((Expr.group name (.alternatives rs)).compile 0 Code.initial).1 })
      (rs.findSome? fun r => (matchHere r text before pos).map (·, true)) := by
  have haccept : p.instrs[0]? = some .accept :=
    (within_of_compile hin) 0 (Nat.le_refl 0) Nat.zero_lt_one
  have hinitial : 0 < Code.initial.instrs.size := Nat.zero_lt_one
  obtain ⟨hbody, hstop, hgroup⟩ :=
    best_group hb hinitial (below_initial haccept) hin t text before pos
  rw [hgroup]
  have hsize : 1 < t.marks.size := (Array.getElem?_eq_some_iff.1 hsecond).1
  have hbelow : p.Below 2 := (below_initial haccept).mark hstop Nat.zero_lt_one
  have hbody : Within ((Expr.alternatives rs).compile 1 (Code.opened name)).2 0 p.instrs := hbody
  have hstop : p.instrs[1]? = some (.mark 1 0) := hstop
  have hopened : 1 < (Code.opened name).instrs.size := Nat.one_lt_two
  refine best_alternatives hb hrs hopened hbelow hbody
    { t with marks := t.marks.setIfInBounds 0 (some pos) } fun r _ code' hinstrs hgroups hpart => ?_
  have hset : (t.marks.setIfInBounds 0 (some pos))[0]? = some (some pos) :=
    Array.getElem?_setIfInBounds_self_of_lt (by omega)
  have hkept : (t.marks.setIfInBounds 0 (some pos))[1]? = some none :=
    (Array.getElem?_setIfInBounds_ne (by omega)).trans hsecond
  have hmatch := best_part (t := { t with marks := t.marks.setIfInBounds 0 (some pos) }) hb
    (Nat.lt_of_lt_of_le Nat.one_lt_two hinstrs) (Nat.lt_of_lt_of_le Nat.zero_lt_two hinstrs)
    (Nat.lt_of_lt_of_le Nat.zero_lt_one hgroups) hpart (Or.inr ⟨rfl, hstop⟩) haccept hstart hset hkept
    text before
  exact rel_map hmatch fun m m' h => ⟨h.start.trans h.start'.symm, h.stop, by
    rw [h.first, h.start]
    rfl, h.second⟩

/-- The alternatives behind the group match without it. -/
theorem best_second (hb : p.Binary) (hss : ss ≠ []) (hbelow : p.Below code.instrs.size)
    (hinstrs : 0 < code.instrs.size) (hgroups : 0 < code.groups.size)
    (hin : Within ((Expr.alternatives ss).compile 0 code).2 0 p.instrs)
    (haccept : p.instrs[0]? = some .accept)
    (hstart : t.start = pos) (hfirst : t.marks[0]? = some none) (hsecond : t.marks[1]? = some none) :
    Option.Rel Tells
      (p.best text before pos { t with place := ((Expr.alternatives ss).compile 0 code).1 })
      (ss.findSome? fun s => (matchHere s text before pos).map (·, false)) := by
  refine best_alternatives (F := fun s => (matchHere s text before pos).map (·, false)) hb hss hinstrs
    hbelow hin t fun s _ code' hinstrs' hgroups' hpart => ?_
  have hmatch := best_part hb (Nat.lt_of_lt_of_le hinstrs hinstrs') (Nat.lt_of_lt_of_le hinstrs hinstrs')
    (Nat.lt_of_lt_of_le hgroups hgroups') hpart (Or.inl ⟨rfl, rfl⟩) haccept hstart hfirst hsecond
    text before
  exact rel_map hmatch fun m m' h => ⟨h.start.trans h.start'.symm, h.stop, h.first, h.second⟩

/-- The group is the first one of the program. -/
theorem groups_joined (name : String) (rs ss : List Expr) :
    ∃ more, (Expr.joined name rs ss).program.groups = #[name] ++ more := by
  have hgroup : ∃ more,
      ((Expr.group name (.alternatives rs)).compile 0 Code.initial).2.groups = #[name] ++ more :=
    (uniform_compile (.alternatives rs)).groups _ _
  cases ss with
  | nil => exact hgroup
  | cons s ss =>
    obtain ⟨more, hmore⟩ := hgroup
    obtain ⟨more', hmore'⟩ := (uniform_compile (.alternatives (s :: ss))).groups 0
      ((Expr.group name (.alternatives rs)).compile 0 Code.initial).2
    refine ⟨more ++ more', ?_⟩
    rw [← Array.append_assoc, ← hmore]
    exact hmore'

/-- **Alternatives of which the first are in a group match what the first of them matches that matches at
all**, and the group tells whether it is one of these. -/
theorem best_joined (name : String) (hrs : rs ≠ []) (ss : List Expr) (text : List Char)
    (before : Option Char) (pos : Nat) :
    Option.Rel Tells
      ((Expr.joined name rs ss).program.best text before pos ((Expr.joined name rs ss).program.fresh pos))
      (choice rs ss text before pos) := by
  have hb := binary_program (Expr.joined name rs ss)
  obtain ⟨more, hgroups⟩ := groups_joined name rs ss
  have hmarks : ∀ i < 2, ((Expr.joined name rs ss).program.fresh pos).marks[i]? = some none := by
    intro i hi
    unfold fresh
    rw [hgroups]
    simp only [Array.size_append, Array.getElem?_replicate]
    rw [if_pos (by simp only [List.size_toArray, List.length_singleton]; omega)]
  have hin : ∀ instrs, instrs = (Expr.joined name rs ss).program.instrs →
      Within ((Expr.joined name rs ss).compile 0 Code.initial).2 0 instrs := by
    rintro _ rfl i - -
    rfl
  unfold choice
  cases ss with
  | nil =>
    -- without further alternatives there is no fork, and the code is that of the group
    rw [List.findSome?_nil, Option.or_none]
    exact best_first (t := (Expr.joined name rs []).program.fresh pos) hb hrs (hin _ rfl) rfl
      (hmarks 1 Nat.one_lt_two)
  | cons s ss =>
    have hwithin := hin _ rfl
    have haccept := (within_of_compile hwithin) 0 (Nat.le_refl 0) Nat.zero_lt_one
    have hbelow := below_initial haccept
    have hsecond := (within_of_push hwithin).1
    have hfirst := within_of_compile hsecond
    have hinitial : 0 < Code.initial.instrs.size := Nat.zero_lt_one
    have halt := best_alt hb hinitial hbelow hwithin
      ((Expr.joined name rs (s :: ss)).program.fresh pos) text before pos
    refine Eq.mpr (congrArg (Option.Rel Tells · _) halt) (rel_or ?_ ?_)
    · exact best_first hb hrs hfirst rfl (hmarks 1 Nat.one_lt_two)
    · have hbelow₁ := (below_compile (r := .group name (.alternatives rs)) hinitial hbelow hfirst).1
      have hle := size_le_compile (.group name (.alternatives rs)) 0 Code.initial
      have hopened := (uniform_compile (.alternatives rs)).groups_le 1 (Code.opened name)
      exact best_second hb (List.cons_ne_nil s ss) hbelow₁ (Nat.lt_of_lt_of_le Nat.zero_lt_one hle)
        (Nat.lt_of_lt_of_le Nat.zero_lt_one hopened) hsecond haccept rfl (hmarks 0 Nat.zero_lt_two)
        (hmarks 1 Nat.one_lt_two)

end Program

/-! ## Searching -/

section Searching

variable {γ : Type} {F : List Char → Option Char → Nat → Option γ} {rel : Match → γ → Prop} {p : Pattern}

/-- What is found at the first place of a text at which something is found. -/
def firstFrom (F : List Char → Option Char → Nat → Option γ) :
    List Char → Option Char → Nat → Option γ
  | [], before, pos => F [] before pos
  | c :: rest, before, pos => (F (c :: rest) before pos).or (firstFrom F rest (some c) (pos + 1))

/-- Nothing is found where nothing is found behind the start of a text. -/
theorem firstFrom_some_eq_none (hF : ∀ text c pos, F text (some c) pos = none) (text : List Char)
    (c : Char) (pos : Nat) : firstFrom F text (some c) pos = none := by
  induction text generalizing c pos with
  | nil => exact hF [] c pos
  | cons c' rest ih => rw [firstFrom, hF, ih, Option.none_or]

/-- **A search finds what is found at the first place at which something is found.** -/
theorem search_firstFrom (hb : p.program.Binary) (hfloat : p.floating = p.program.isFloating)
    (hF : ∀ text before pos, Option.Rel rel
      (p.program.best text before pos (p.program.fresh pos)) (F text before pos))
    (before : Option Char) (text : List Char) (pos : Nat) :
    Option.Rel rel (p.search before text pos) (firstFrom F text before pos) := by
  rw [search_eq_leftmost hb]
  induction text generalizing before pos with
  | nil => exact hF [] before pos
  | cons c rest ih =>
    rw [leftmost, firstFrom, if_pos rfl]
    refine Program.rel_or (hF (c :: rest) before pos) ?_
    cases hp : p.floating with
    | true => exact ih (some c) (pos + 1)
    | false =>
      -- the search stops behind the start of the text, where nothing is found either
      have hnone : ∀ text c pos, F text (some c) pos = none := by
        intro text c pos
        have hrel := hF text (some c) pos
        rw [Program.best_of_not_isFloating hb (hfloat.symm.trans hp)] at hrel
        cases hrel' : F text (some c) pos with
        | none => rfl
        | some x =>
          rw [hrel'] at hrel
          cases hrel
      rw [leftmost_false hp, firstFrom_some_eq_none hnone]
      exact .none

end Searching

end ParserGen.Pattern
