import Mathlib.Data.List.Forall2
import Mathlib.Data.Option.Basic
import ParserGen.Proofs.Pattern.Matching
import ParserGen.Proofs.Pattern.Preference

/-!
# Code means the same wherever it is laid down

The code of an expression differs from place to place only in the numbers of its instructions and of its
groups. A thread that runs it as part of a larger program therefore comes to the same match as one that
runs the program of the expression alone, up to the groups that are noted on the way.

* `Alike`, `Uniform`: code that is the same at two places, up to these numbers.
* `uniform_compile`: **the code of an expression is the same everywhere.**
* `Mirrors`: a part of a program that mirrors another program.
* `Mirrors.best`: **a thread comes to the same match in the part and in the program it mirrors.**
-/

namespace ParserGen.Pattern

/-! ## Code at two places -/

/-- Instructions correspond that do the same and lead to places that correspond. Groups are noted in
slots from a number on. -/
inductive Alike (R : Nat → Nat → Prop) (slot : Nat) : Instr → Instr → Prop
  | char {s : CharSet} {i i' : Nat} (h : R i i') : Alike R slot (.char s i) (.char s i')
  | fork {is is' : List Nat} (h : List.Forall₂ R is is') (hlen : is.length ≤ 2) :
      Alike R slot (.fork is) (.fork is')
  | assertion {a : Assertion} {i i' : Nat} (h : R i i') :
      Alike R slot (.assertion a i) (.assertion a i')
  | mark {m m' i i' : Nat} (hm : slot ≤ m) (h : R i i') : Alike R slot (.mark m i) (.mark m' i')

theorem Alike.mono {R R' : Nat → Nat → Prop} {slot slot' : Nat} {a b : Instr} (h : Alike R slot a b)
    (hR : ∀ i i', R i i' → R' i i') (hslot : slot' ≤ slot) : Alike R' slot' a b := by
  cases h with
  | char h => exact .char (hR _ _ h)
  | fork h hlen => exact .fork (h.imp hR) hlen
  | assertion h => exact .assertion (hR _ _ h)
  | mark hm h => exact .mark (by omega) (hR _ _ h)

/-- Code of a size that is laid down at two places: where it goes on, and places in it, correspond. -/
def Shifts (next next' n n' size : Nat) (i i' : Nat) : Prop :=
  (i = next ∧ i' = next') ∨ ∃ j < size, i = n + j ∧ i' = n' + j

/-- What is laid down behind code of two sizes is of the same size and the same up to the numbers of
places. Groups are noted in slots from a number on. -/
structure Moved (slot next next' n n' : Nat) (laid laid' : Nat × Code) (size : Nat) : Prop where
  grown : laid.2.instrs.size = n + size
  grown' : laid'.2.instrs.size = n' + size
  start : Shifts next next' n n' size laid.1 laid'.1
  alike : ∀ j < size, Option.Rel (Alike (Shifts next next' n n' size) slot)
    laid.2.instrs[n + j]? laid'.2.instrs[n' + j]?

/-- A layer lays down the same code everywhere, and adds to the groups. -/
structure Uniform (layer : Code.Layer) : Prop where
  groups : ∀ next code, ∃ more, (layer next code).2.groups = code.groups ++ more
  moved : ∀ next next' code code', ∃ size,
    Moved (2 * code.groups.size) next next' code.instrs.size code'.instrs.size (layer next code)
      (layer next' code') size

theorem optionRel_mono {α β : Type} {r r' : α → β → Prop} {x : Option α} {y : Option β}
    (h : Option.Rel r x y) (hr : ∀ a b, r a b → r' a b) : Option.Rel r' x y := by
  cases h with
  | some h => exact .some (hr _ _ h)
  | none => exact .none

theorem Shifts.mono {next next' n n' size size' i i' : Nat} (h : Shifts next next' n n' size i i')
    (hle : size ≤ size') : Shifts next next' n n' size' i i' := by
  rcases h with h | ⟨j, hj, h⟩
  · exact Or.inl h
  · exact Or.inr ⟨j, by omega, h⟩

theorem Shifts.lt {next next' n n' size i i' : Nat} (h : Shifts next next' n n' size i i')
    (hnext : next < n) : i < n + size := by
  rcases h with ⟨rfl, -⟩ | ⟨j, hj, rfl, -⟩ <;> omega

/-- Code that stands behind other code goes on at a place of it or where that goes on. -/
theorem Shifts.behind {next next' middle middle' n n' size size' i i' : Nat}
    (h : Shifts middle middle' (n + size) (n' + size) size' i i')
    (hmiddle : Shifts next next' n n' (size + size') middle middle') :
    Shifts next next' n n' (size + size') i i' := by
  rcases h with ⟨rfl, rfl⟩ | ⟨j, hj, rfl, rfl⟩
  · exact hmiddle
  · exact Or.inr ⟨size + j, by omega, by omega, by omega⟩

namespace Moved

variable {slot next next' n n' size size' : Nat} {code code' : Code} {laid laid' last last' : Nat × Code}
  {instr instr' : Instr}

theorem mono {slot' : Nat} (h : Moved slot next next' n n' laid laid' size) (hle : slot' ≤ slot) :
    Moved slot' next next' n n' laid laid' size :=
  ⟨h.grown, h.grown', h.start, fun j hj => optionRel_mono (h.alike j hj) fun _ _ ha =>
    ha.mono (fun _ _ hs => hs) hle⟩

/-- Code behind other code, which goes on at a place of that code or where that code goes on. -/
theorem append {middle middle' : Nat} (h : Moved slot next next' n n' laid laid' size)
    (h' : Moved slot middle middle' laid.2.instrs.size laid'.2.instrs.size last last' size')
    (hmiddle : Shifts next next' n n' size middle middle')
    (hkeeps : ∀ i < laid.2.instrs.size, last.2.instrs[i]? = laid.2.instrs[i]?)
    (hkeeps' : ∀ i < laid'.2.instrs.size, last'.2.instrs[i]? = laid'.2.instrs[i]?) :
    Moved slot next next' n n' last last' (size + size') := by
  have hgrown := h.grown
  have hgrown' := h.grown'
  have hmiddle := hmiddle.mono (Nat.le_add_right size size')
  refine ⟨by rw [h'.grown, hgrown, Nat.add_assoc], by rw [h'.grown', hgrown', Nat.add_assoc], ?_, ?_⟩
  · have hstart := h'.start
    rw [hgrown, hgrown'] at hstart
    exact hstart.behind hmiddle
  · intro j hj
    by_cases hfirst : j < size
    · rw [hkeeps _ (by omega), hkeeps' _ (by omega)]
      exact optionRel_mono (h.alike j hfirst) fun _ _ ha =>
        ha.mono (fun _ _ hs => hs.mono (Nat.le_add_right size size')) (Nat.le_refl slot)
    · have hlast := h'.alike (j - size) (by omega)
      rw [hgrown, hgrown'] at hlast
      rw [show n + j = n + size + (j - size) by omega,
        show n' + j = n' + size + (j - size) by omega]
      exact optionRel_mono hlast fun _ _ ha =>
        ha.mono (fun _ _ hs => hs.behind hmiddle) (Nat.le_refl slot)

/-- One instruction. -/
theorem push (code code' : Code)
    (h : Alike (Shifts next next' code.instrs.size code'.instrs.size 1) slot instr instr') :
    Moved slot next next' code.instrs.size code'.instrs.size (code.push instr) (code'.push instr') 1 := by
  refine ⟨size_push, size_push, Or.inr ⟨0, by omega, rfl, rfl⟩, fun j hj => ?_⟩
  obtain rfl : j = 0 := by omega
  rw [Nat.add_zero, Nat.add_zero, getElem?_push_last, getElem?_push_last]
  exact .some h

/-- An instruction behind code, which may lead to the code and to where it goes on. -/
theorem concat (h : Moved slot next next' n n' laid laid' size)
    (ha : Alike (Shifts next next' n n' (size + 1)) slot instr instr') :
    Moved slot next next' n n' (laid.2.push instr) (laid'.2.push instr') (size + 1) := by
  have hgrown := h.grown
  have hgrown' := h.grown'
  refine ⟨by rw [size_push, hgrown, Nat.add_assoc], by rw [size_push, hgrown', Nat.add_assoc],
    Or.inr ⟨size, by omega, hgrown, hgrown'⟩, fun j hj => ?_⟩
  by_cases hlast : j = size
  · subst hlast
    rw [← hgrown, ← hgrown', getElem?_push_last, getElem?_push_last]
    exact .some ha
  · rw [getElem?_push_of_lt (by omega), getElem?_push_of_lt (by omega)]
    exact optionRel_mono (h.alike j (by omega)) fun _ _ hb =>
      hb.mono (fun _ _ hs => hs.mono (Nat.le_succ size)) (Nat.le_refl slot)

/-- Another instruction in place of the first one. -/
theorem patch (h : Moved slot next next' n n' laid laid' size) (hpos : 0 < size)
    (ha : Alike (Shifts next next' n n' size) slot instr instr') :
    Moved slot next next' n n' (laid.1, laid.2.patch n instr)
      (laid'.1, laid'.2.patch n' instr') size := by
  have hgrown := h.grown
  have hgrown' := h.grown'
  refine ⟨size_patch.trans hgrown, size_patch.trans hgrown', h.start, fun j hj => ?_⟩
  by_cases hfirst : j = 0
  · subst hfirst
    rw [Nat.add_zero, Nat.add_zero, getElem?_patch_self (by omega), getElem?_patch_self (by omega)]
    exact .some ha
  · rw [getElem?_patch_of_ne (by omega), getElem?_patch_of_ne (by omega)]
    exact h.alike j hj

theorem startAt (h : Moved slot next next' n n' laid laid' size) {i i' : Nat}
    (hi : Shifts next next' n n' size i i') :
    Moved slot next next' n n' (i, laid.2) (i', laid'.2) size :=
  ⟨h.grown, h.grown', hi, h.alike⟩

end Moved

namespace Uniform

variable {layer layer' : Code.Layer} {L L' : List Char → Prop}

theorem groups_le (h : Uniform layer) (next : Nat) (code : Code) :
    code.groups.size ≤ (layer next code).2.groups.size := by
  obtain ⟨more, hmore⟩ := h.groups next code
  rw [hmore, Array.size_append]
  omega

theorem groups_trans {code code' code'' : Code} (h : ∃ more, code'.groups = code.groups ++ more)
    (h' : ∃ more, code''.groups = code'.groups ++ more) : ∃ more, code''.groups = code.groups ++ more := by
  obtain ⟨more, hmore⟩ := h
  obtain ⟨more', hmore'⟩ := h'
  exact ⟨more ++ more', by rw [hmore', hmore, Array.append_assoc]⟩

/-- No code. -/
theorem nil : Uniform fun next code => (next, code) where
  groups _ _ := ⟨#[], Array.append_empty.symm⟩
  moved _ _ _ _ := ⟨0, rfl, rfl, Or.inl ⟨rfl, rfl⟩, fun j hj => by omega⟩

/-- One instruction, which notes no group. -/
theorem push {instr : Nat → Instr} (h : ∀ R slot next next', R next next' →
      Alike R slot (instr next) (instr next')) : Uniform fun next code => code.push (instr next) where
  groups _ _ := ⟨#[], Array.append_empty.symm⟩
  moved next next' _ _ := ⟨1, Moved.push _ _ (h _ _ next next' (Or.inl ⟨rfl, rfl⟩))⟩

/-- Code for one part that goes on at code for another. -/
theorem seq (hl : Lays layer L) (h : Uniform layer) (h' : Uniform layer') :
    Uniform fun next code => layer (layer' next code).1 (layer' next code).2 where
  groups next code := groups_trans (h'.groups next code) (h.groups _ _)
  moved next next' code code' := by
    obtain ⟨size, hmoved⟩ := h'.moved next next' code code'
    obtain ⟨size', hmoved'⟩ := h.moved (layer' next code).1 (layer' next' code').1
      (layer' next code).2 (layer' next' code').2
    have hle := h'.groups_le next code
    exact ⟨size + size', hmoved.append (hmoved'.mono (by omega)) hmoved.start
      (hl.keeps _ _) (hl.keeps _ _)⟩

/-- A fork between two places. -/
theorem alike_choice {R : Nat → Nat → Prop} {slot i i' j j' : Nat} (greedy : Bool) (hi : R i i')
    (hj : R j j') : Alike R slot (Code.choice greedy i j) (Code.choice greedy i' j') := by
  unfold Code.choice
  cases greedy with
  | true => exact .fork (.cons hi (.cons hj .nil)) (Nat.le_refl 2)
  | false => exact .fork (.cons hj (.cons hi .nil)) (Nat.le_refl 2)

/-- A fork behind code for a part: to the code, or past it. -/
theorem orNone (h : Uniform layer) (greedy : Bool) :
    Uniform fun next code =>
      (layer next code).2.push (Code.choice greedy (layer next code).1 next) where
  groups next code := h.groups next code
  moved next next' code code' := by
    obtain ⟨size, hmoved⟩ := h.moved next next' code code'
    exact ⟨size + 1, hmoved.concat
      (alike_choice greedy (hmoved.start.mono (Nat.le_succ size)) (Or.inl ⟨rfl, rfl⟩))⟩

/-- A fork behind code for two parts. -/
theorem alt (hl' : Lays layer' L') (h : Uniform layer) (h' : Uniform layer') :
    Uniform fun next code => (layer' next (layer next code).2).2.push
      (.fork [(layer next code).1, (layer' next (layer next code).2).1]) where
  groups next code := groups_trans (h.groups next code) (h'.groups next (layer next code).2)
  moved next next' code code' := by
    obtain ⟨size, hmoved⟩ := h.moved next next' code code'
    obtain ⟨size', hmoved'⟩ := h'.moved next next' (layer next code).2 (layer next' code').2
    have hle := h.groups_le next code
    have hboth := hmoved.append (hmoved'.mono (by omega)) (Or.inl ⟨rfl, rfl⟩)
      (hl'.keeps _ _) (hl'.keeps _ _)
    refine ⟨size + size' + 1, hboth.concat (.fork (.cons ?_ (.cons ?_ .nil)) (Nat.le_refl 2))⟩
    · exact hmoved.start.mono (by omega)
    · exact hboth.start.mono (by omega)

/-- A fork in front of code for a part that comes back to it. -/
theorem cycle (hl : Lays layer L) (h : Uniform layer) (greedy : Bool) (first : Nat → Nat → Nat)
    (hfirst : ∀ (R : Nat → Nat → Prop) fork fork' start start', R fork fork' → R start start' →
      R (first fork start) (first fork' start')) :
    Uniform fun next code =>
      let forked := (code.push (.fork [])).2
      let body := layer code.instrs.size forked
      (first code.instrs.size body.1,
        body.2.patch code.instrs.size (Code.choice greedy body.1 next)) where
  groups next code := h.groups code.instrs.size (code.push (.fork [])).2
  moved next next' code code' := by
    have hfork : Moved (2 * code.groups.size) next next' code.instrs.size code'.instrs.size
        (code.push (.fork [])) (code'.push (.fork [])) 1 :=
      Moved.push code code' (.fork .nil (Nat.zero_le 2))
    obtain ⟨size, hbody⟩ := h.moved code.instrs.size code'.instrs.size (code.push (.fork [])).2
      (code'.push (.fork [])).2
    have hboth := hfork.append hbody hfork.start (hl.keeps _ _) (hl.keeps _ _)
    have hchoice : Alike (Shifts next next' code.instrs.size code'.instrs.size (1 + size))
        (2 * code.groups.size) _ _ :=
      alike_choice greedy hboth.start (Or.inl ⟨rfl, rfl⟩)
    exact ⟨1 + size, (hboth.patch (by omega) hchoice).startAt
      (hfirst _ _ _ _ _ (hfork.start.mono (Nat.le_add_right 1 size)) hboth.start)⟩

theorem plus (hl : Lays layer L) (h : Uniform layer) (greedy : Bool) :
    Uniform (Code.plus greedy layer) :=
  cycle hl h greedy (fun _ start => start) fun _ _ _ _ _ _ hstart => hstart

theorem star (hl : Lays layer L) (h : Uniform layer) (greedy mayBeEmpty : Bool) :
    Uniform (Code.star greedy mayBeEmpty layer) := by
  cases mayBeEmpty with
  | true => exact (plus hl h greedy).orNone greedy
  | false => exact cycle hl h greedy (fun fork _ => fork) fun _ _ _ _ _ hfork _ => hfork

theorem times (hl : Lays layer L) (h : Uniform layer) (n : Nat) : Uniform (Code.times layer n) := by
  induction n with
  | zero => exact nil
  | succ n ih => exact seq hl h ih

theorem upTo (hl : Lays layer L) (h : Uniform layer) (greedy : Bool) (n : Nat) :
    Uniform (Code.upTo greedy layer n) := by
  induction n with
  | zero => exact nil
  | succ n ih => exact (seq hl h ih).orNone greedy

/-- A group notes where it begins and ends in slots of its own. -/
theorem group (hl : Lays layer L) (h : Uniform layer) (name : String) :
    Uniform fun next code =>
      let code' := { code with groups := code.groups.push name }
      let stop := code'.push (.mark (2 * code.groups.size + 1) next)
      let body := layer stop.1 stop.2
      body.2.push (.mark (2 * code.groups.size) body.1) where
  groups next code := by
    have hname : ∃ more, (Code.mk code.instrs (code.groups.push name)).groups = code.groups ++ more :=
      ⟨#[name], Array.push_eq_append⟩
    exact groups_trans hname (h.groups _ _)
  moved next next' code code' := by
    have hstop : Moved (2 * code.groups.size) next next' code.instrs.size code'.instrs.size
        (Code.push { code with groups := code.groups.push name } (.mark (2 * code.groups.size + 1) next))
        (Code.push { code' with groups := code'.groups.push name }
          (.mark (2 * code'.groups.size + 1) next')) 1 :=
      Moved.push { code with groups := code.groups.push name }
        { code' with groups := code'.groups.push name }
        (.mark (Nat.le_succ (2 * code.groups.size)) (Or.inl ⟨rfl, rfl⟩))
    obtain ⟨size, hbody⟩ := h.moved code.instrs.size code'.instrs.size
      (Code.push { code with groups := code.groups.push name }
        (.mark (2 * code.groups.size + 1) next)).2
      (Code.push { code' with groups := code'.groups.push name }
        (.mark (2 * code'.groups.size + 1) next')).2
    have hle : 2 * code.groups.size ≤ 2 * (code.groups.push name).size := by
      rw [Array.size_push]
      omega
    have hboth := hstop.append (hbody.mono hle) hstop.start (hl.keeps _ _) (hl.keeps _ _)
    exact ⟨1 + size + 1, hboth.concat
      (.mark (Nat.le_refl _) (hboth.start.mono (Nat.le_succ (1 + size))))⟩

end Uniform

/-- **The code of an expression is the same everywhere.** -/
theorem uniform_compile (r : Expr) : Uniform r.compile := by
  induction r with
  | empty => exact Uniform.nil
  | char s => exact Uniform.push fun _ _ _ _ h => .char h
  | assertion a => exact Uniform.push fun _ _ _ _ h => .assertion h
  | seq r s ihr ihs => exact ihr.seq (lays_compile r) ihs
  | alt r s ihr ihs => exact ihr.alt (lays_compile s) ihs
  | repetition least most greedy r ih =>
    have hl := lays_compile r
    cases most with
    | some most => exact (ih.times hl least).seq (hl.times least) (ih.upTo hl greedy (most - least))
    | none =>
      cases least with
      | zero => exact ih.star hl greedy r.mayBeEmpty
      | succ least => exact (ih.times hl least).seq (hl.times least) (ih.plus hl greedy)
  | group name r ih => exact ih.group (lays_compile r) name

/-! ## A part of a program -/

namespace Program

/-- A part of a program up to an exit mirrors another program up to where that accepts: the places
correspond one to one, and so do their instructions. Groups are noted in other slots than the first. -/
structure Mirrors (p q : Program) (R : Nat → Nat → Prop) (exit : Nat) : Prop where
  unique : ∀ i i' j j', R i i' → R j j' → (i = j ↔ i' = j')
  ends : ∀ i', R exit i' → q.instrs[i']? = some .accept
  alike : ∀ i i', R i i' → i ≠ exit → ∃ a b, p.instrs[i]? = some a ∧ q.instrs[i']? = some b ∧
    Alike R 2 a b

/-- At the exit of a part the program accepts, at once or after the place has been noted as the end of
the first group. -/
structure Finishes (p : Program) (R : Nat → Nat → Prop) (exit last : Nat) (noted : Bool) : Prop where
  leads : (noted = false ∧ last = exit) ∨ noted = true ∧ p.instrs[exit]? = some (.mark 1 last)
  accepts : p.instrs[last]? = some .accept
  apart : ∀ i', R last i' → last = exit

/-- A thread in the part stands where one in the program that is mirrored stands. What it has noted for
the first group is known. -/
structure Follows (R : Nat → Nat → Prop) (origin : Nat) (first second : Option Nat) (t u : Thread) :
    Prop where
  place : R t.place u.place
  start : t.start = origin
  start' : u.start = origin
  first : t.marks[0]? = some first
  second : t.marks[1]? = some second

/-- The matches are the same, up to the groups. The end of the first group is where the match ends, if it
is noted. -/
structure SameMatch (origin : Nat) (first second : Option Nat) (noted : Bool) (m m' : Match) : Prop where
  start : m.start = origin
  start' : m'.start = origin
  stop : m.stop = m'.stop
  first : m.marks[0]? = some first
  second : m.marks[1]? = some (if noted then some m.stop else second)

variable {p q : Program} {R : Nat → Nat → Prop} {exit last origin pos : Nat} {first second : Option Nat}
  {noted : Bool} {holds : Assertion → Bool} {t u : Thread}

/-- Threads that wait for the same character, or have found the same match. -/
inductive WaitAlike (p q : Program) (R : Nat → Nat → Prop) (origin : Nat) (first second : Option Nat)
    (noted : Bool) (pos : Nat) (t u : Thread) : Prop
  | char {s : CharSet} {i i' : Nat} (h : Follows R origin first second t u)
      (hp : p.instrs[t.place]? = some (.char s i)) (hq : q.instrs[u.place]? = some (.char s i'))
      (hi : R i i')
  | accept (hp : p.instrs[t.place]? = some .accept) (hq : q.instrs[u.place]? = some .accept)
      (h : SameMatch origin first second noted (matchOf pos t) (matchOf pos u))

theorem Follows.moved (h : Follows R origin first second t u) {i i' : Nat} (hi : R i i') :
    Follows R origin first second { t with place := i } { u with place := i' } :=
  ⟨hi, h.start, h.start', h.first, h.second⟩

/-- Alike instructions lead to places that correspond. -/
theorem Follows.moves (h : Follows R origin first second t u) {a b : Instr}
    (hp : p.instrs[t.place]? = some a) (hq : q.instrs[u.place]? = some b) (halike : Alike R 2 a b)
    {us : List Thread} (hmoves : q.moves? holds pos u = some us) :
    ∃ ts, p.moves? holds pos t = some ts ∧ List.Forall₂ (Follows R origin first second) ts us := by
  unfold moves? at hmoves ⊢
  rw [hp]
  rw [hq] at hmoves
  cases halike with
  | char _ => cases hmoves
  | fork his _ =>
    cases hmoves
    refine ⟨_, rfl, ?_⟩
    rw [List.forall₂_map_left_iff, List.forall₂_map_right_iff]
    exact his.imp fun i i' hi => h.moved hi
  | @assertion a i i' hi =>
    cases hmoves
    refine ⟨_, rfl, ?_⟩
    by_cases ha : holds a = true
    · rw [if_pos ha, if_pos ha]
      exact .cons (h.moved hi) .nil
    · rw [if_neg ha, if_neg ha]
      exact .nil
  | @mark m m' i i' hm hi =>
    cases hmoves
    refine ⟨_, rfl, .cons ⟨hi, h.start, h.start', ?_, ?_⟩ .nil⟩
    · exact (Array.getElem?_setIfInBounds_ne (by omega)).trans h.first
    · exact (Array.getElem?_setIfInBounds_ne (by omega)).trans h.second

/-- The same instructions have been run, and the one behind the exit only with the exit. -/
structure SeenAlike (R : Nat → Nat → Prop) (exit last : Nat) (seen seen' : Set Nat) : Prop where
  same : ∀ i i', R i i' → (i ∈ seen ↔ i' ∈ seen')
  exit : last ∈ seen → exit ∈ seen

variable {seen seen' : Set Nat}

theorem SeenAlike.not_mem (hseen : SeenAlike R exit last seen seen')
    (h : Follows R origin first second t u) (hnew : u.place ∉ seen') : t.place ∉ seen :=
  fun hmem => hnew ((hseen.same _ _ h.place).1 hmem)

/-- Instructions that correspond are run both times. -/
theorem SeenAlike.step (hseen : SeenAlike R exit last seen seen') (hm : Mirrors p q R exit)
    (hf : Finishes p R exit last noted) {i i' : Nat} (hi : R i i') :
    SeenAlike R exit last (insert i seen) (insert i' seen') where
  same j j' hj := or_congr (hm.unique j j' i i' hj hi) (hseen.same j j' hj)
  exit := by
    rintro (rfl | hmem)
    · exact Or.inl (hf.apart i' hi).symm
    · exact Or.inr (hseen.exit hmem)

/-- The instruction behind the exit corresponds to none. -/
theorem SeenAlike.step_last (hseen : SeenAlike R exit last seen seen')
    (hf : Finishes p R exit last noted) (hne : last ≠ exit) (hexit : exit ∈ seen) :
    SeenAlike R exit last (insert last seen) seen' where
  same i i' hi := by
    rw [← hseen.same i i' hi, Set.mem_insert_iff, or_iff_right]
    rintro rfl
    exact hne (hf.apart i' hi)
  exit _ := Or.inr hexit

/-- **Where a thread waits in the program that is mirrored, one waits in the part**, at the exit perhaps
after one step more. -/
theorem Mirrors.wait (hm : Mirrors p q R exit) (hf : Finishes p R exit last noted)
    (hseen : SeenAlike R exit last seen seen') (h : Follows R origin first second t u)
    (hnew : u.place ∉ seen') (hwaits : q.moves? holds pos u = none) :
    ∃ between t', SeenAlike R exit last between (insert u.place seen') ∧
      WaitAlike p q R origin first second noted pos t' u ∧
      ∀ {todo waiting final}, p.Explores holds pos Set.univ todo between waiting final →
        p.Explores holds pos Set.univ (t :: todo) seen (t' :: waiting) final := by
  have hnew' := hseen.not_mem h hnew
  have hinsert := hseen.step hm hf h.place
  -- at the exit the part accepts, and the mirrored program does so at once or after one more note
  by_cases hexit : t.place = exit
  · have hq := hm.ends u.place (hexit ▸ h.place)
    rcases hf.leads with ⟨rfl, rfl⟩ | ⟨rfl, hmark⟩
    · have hp : p.instrs[t.place]? = some .accept := hexit ▸ hf.accepts
      have hsame : SameMatch origin first second false (matchOf pos t) (matchOf pos u) :=
        ⟨h.start, h.start', rfl, h.first, h.second⟩
      have hwaits' : p.moves? holds pos t = none := by
        unfold moves?
        rw [hp]
      exact ⟨_, t, hinsert, .accept hp hq hsame, .wait hnew' (Set.mem_univ _) hwaits'⟩
    · -- the place is noted first, and then the program accepts
      let t' : Thread := { t with place := last, marks := t.marks.setIfInBounds 1 (some pos) }
      have hsize : 1 < t.marks.size := (Array.getElem?_eq_some_iff.1 h.second).1
      have hsame : SameMatch origin first second true (matchOf pos t') (matchOf pos u) :=
        ⟨h.start, h.start', rfl, (Array.getElem?_setIfInBounds_ne (by omega)).trans h.first,
          Array.getElem?_setIfInBounds_self_of_lt hsize⟩
      have hmoves : p.moves? holds pos t = some [t'] := by
        unfold moves?
        rw [hexit, hmark]
      have hwaits' : p.moves? holds pos t' = none := by
        unfold moves?
        rw [hf.accepts]
      have hne : last ≠ exit := by
        rintro rfl
        rw [hf.accepts] at hmark
        cases hmark
      have hlast : last ∉ insert t.place seen := by
        rintro (heq | hmem)
        · exact hne (heq.trans hexit)
        · exact hnew' (hexit ▸ hseen.exit hmem)
      refine ⟨_, t', hinsert.step_last hf hne (Or.inl hexit.symm), .accept hf.accepts hq hsame,
        fun hrest => ?_⟩
      exact .move hnew' (Set.mem_univ _) hmoves (.wait hlast (Set.mem_univ _) hwaits' hrest)
  · obtain ⟨a, b, hp, hq, halike⟩ := hm.alike _ _ h.place hexit
    cases halike with
    | char hi =>
      have hwaits' : p.moves? holds pos t = none := by
        unfold moves?
        rw [hp]
      exact ⟨_, t, hinsert, .char h hp hq hi, .wait hnew' (Set.mem_univ _) hwaits'⟩
    | fork | assertion | mark => simp [moves?, hq] at hwaits

/-- **Threads in the part run like those in the program that is mirrored.** By induction on the run of
the latter. -/
theorem Mirrors.explores (hm : Mirrors p q R exit) (hf : Finishes p R exit last noted)
    {todo' waiting' : List Thread} {final' : Set Nat}
    (h : q.Explores holds pos Set.univ todo' seen' waiting' final') {todo : List Thread}
    (htodo : List.Forall₂ (Follows R origin first second) todo todo')
    (hseen : SeenAlike R exit last seen seen') :
    ∃ waiting final, p.Explores holds pos Set.univ todo seen waiting final ∧
      List.Forall₂ (WaitAlike p q R origin first second noted pos) waiting waiting' := by
  induction h generalizing todo seen with
  | done seen' =>
    cases htodo
    exact ⟨[], seen, .done _, .nil⟩
  | skip hskip hrest ih =>
    cases htodo with
    | cons ht htodo =>
      have hmem := hskip.resolve_right (not_not_intro (Set.mem_univ _))
      obtain ⟨waiting, final, hexplores, hwaiting⟩ := ih htodo hseen
      exact ⟨waiting, final, .skip (Or.inl ((hseen.same _ _ ht.place).2 hmem)) hexplores, hwaiting⟩
  | wait hnew hin hwaits hrest ih =>
    cases htodo with
    | cons ht htodo =>
      obtain ⟨between, t', hbetween, halike, hlead⟩ := hm.wait hf hseen ht hnew hwaits
      obtain ⟨waiting, final, hexplores, hwaiting⟩ := ih htodo hbetween
      exact ⟨t' :: waiting, final, hlead hexplores, .cons halike hwaiting⟩
  | @move u us todo' waiting' seen' final' hnew hin hmoves hrest ih =>
    cases htodo with
    | @cons t _ todo _ ht htodo =>
      have hexit : t.place ≠ exit := by
        intro heq
        simp [moves?, hm.ends u.place (heq ▸ ht.place)] at hmoves
      obtain ⟨a, b, hp, hq, halike⟩ := hm.alike _ _ ht.place hexit
      obtain ⟨ts, hmoves', hts⟩ := ht.moves hp hq halike hmoves
      obtain ⟨waiting, final, hexplores, hwaiting⟩ :=
        ih (List.rel_append hts htodo) (hseen.step hm hf ht.place)
      exact ⟨waiting, final, .move (hseen.not_mem ht hnew) (Set.mem_univ _) hmoves' hexplores, hwaiting⟩

theorem rel_or {α β : Type} {r : α → β → Prop} {x x' : Option α} {y y' : Option β}
    (h : Option.Rel r x y) (h' : Option.Rel r x' y') : Option.Rel r (x.or x') (y.or y') := by
  cases h with
  | some h => exact .some h
  | none => exact h'

theorem rel_findSome? {α α' β β' : Type} {r : α → α' → Prop} {r' : β → β' → Prop} {f : α → Option β}
    {g : α' → Option β'} {l : List α} {l' : List α'} (h : List.Forall₂ r l l')
    (hfg : ∀ a a', r a a' → Option.Rel r' (f a) (g a')) :
    Option.Rel r' (l.findSome? f) (l'.findSome? g) := by
  induction h with
  | nil => exact .none
  | cons ha _ ih =>
    rw [findSome?_cons_or, findSome?_cons_or]
    exact rel_or (hfg _ _ ha) ih

/-- Threads that wait alike come to the same match, if that is so behind the next character. -/
theorem WaitAlike.yields {text : List Char} (h : WaitAlike p q R origin first second noted pos t u)
    (hbest : ∀ c rest, text = c :: rest → ∀ t u, Follows R origin first second t u →
      Option.Rel (SameMatch origin first second noted) (p.best rest (some c) (pos + 1) t)
        (q.best rest (some c) (pos + 1) u)) :
    Option.Rel (SameMatch origin first second noted) (p.yields text pos t) (q.yields text pos u) := by
  cases h with
  | accept hp hq hsame =>
    rw [yields_accept hp, yields_accept hq]
    exact .some hsame
  | @char s i i' h hp hq hi =>
    cases text with
    | nil =>
      rw [yields_nil_char hp, yields_nil_char hq]
      exact .none
    | cons c rest =>
      rw [yields_cons_char hp, yields_cons_char hq]
      by_cases hc : s.contains c = true
      · rw [if_pos hc, if_pos hc]
        exact hbest c rest rfl _ _ (h.moved hi)
      · rw [if_neg hc, if_neg hc]
        exact .none

theorem Mirrors.best_of {text : List Char} {before : Option Char} (hbp : p.Binary) (hbq : q.Binary)
    (hm : Mirrors p q R exit) (hf : Finishes p R exit last noted)
    (h : Follows R origin first second t u)
    (hbest : ∀ c rest, text = c :: rest → ∀ t u, Follows R origin first second t u →
      Option.Rel (SameMatch origin first second noted) (p.best rest (some c) (pos + 1) t)
        (q.best rest (some c) (pos + 1) u)) :
    Option.Rel (SameMatch origin first second noted) (p.best text before pos t)
      (q.best text before pos u) := by
  obtain ⟨waiting', _, hexplores', hbest'⟩ := best_explores hbq text before pos u
  have hseen : SeenAlike R exit last ∅ ∅ :=
    ⟨fun _ _ _ => Iff.rfl, fun hmem => absurd hmem (Set.notMem_empty last)⟩
  obtain ⟨waiting, _, hexplores, hwaiting⟩ := hm.explores hf hexplores' (.cons h .nil) hseen
  obtain ⟨waiting₂, _, hexplores₂, hbest₂⟩ := best_explores hbp text before pos t
  rw [hbest', hbest₂, hexplores₂.unique hexplores]
  exact rel_findSome? hwaiting fun v w hvw => hvw.yields hbest

/-- **A thread comes to the same match in the part and in the program it mirrors.** -/
theorem Mirrors.best (hbp : p.Binary) (hbq : q.Binary) (hm : Mirrors p q R exit)
    (hf : Finishes p R exit last noted) (h : Follows R origin first second t u) (text : List Char)
    (before : Option Char) (pos : Nat) :
    Option.Rel (SameMatch origin first second noted) (p.best text before pos t)
      (q.best text before pos u) := by
  induction text generalizing before pos t u with
  | nil => exact hm.best_of hbp hbq hf h fun c rest heq => by cases heq
  | cons c rest ih =>
    refine hm.best_of hbp hbq hf h fun c' rest' heq t u h => ?_
    cases heq
    exact ih h (some c) (pos + 1)

end Program

end ParserGen.Pattern
