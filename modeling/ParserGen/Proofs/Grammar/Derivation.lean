import Mathlib.Logic.Relation
import ParserGen.Proofs.Grammar.ParseTree

/-!
# Derivations

A rule rewrites a string of symbols: its right side takes the place of its left side. A string yields
another if some number of such steps leads from one to the other.

What a string yields first is decided from left to right: a string vanishes if a rule with a
vanishing right side can be chosen for each of its symbols, and it starts with a terminal if that
terminal comes after symbols that vanish, or after such symbols in the right side of a rule for the
next one.

* `vanishes_iff`, `starts_iff`: **vanishing and starting are what derivations do.**
* `DerivesAll.yields`, `exists_trees`: parse trees and derivations of strings of terminals are the
  same.
-/

namespace ParserGen

namespace Grammar

variable {V : Type} {g : Grammar V}

/-- One step of a derivation. -/
inductive Rewrites (g : Grammar V) : List Symbol → List Symbol → Prop where
  | rule {k : Nat} {r : Rule V} (hr : g.rules[k]? = some r) (before after : List Symbol) :
      Rewrites g (before ++ .nonterminal r.left :: after) (before ++ (r.symbols ++ after))

/-- The second string is derived from the first in zero or more steps. -/
def Yields (g : Grammar V) : List Symbol → List Symbol → Prop :=
  Relation.ReflTransGen g.Rewrites

theorem Yields.of_rule {k : Nat} {r : Rule V} (hr : g.rules[k]? = some r) (before after : List Symbol) :
    g.Yields (before ++ .nonterminal r.left :: after) (before ++ (r.symbols ++ after)) :=
  .single (.rule hr before after)

theorem Yields.append_left {xs ys : List Symbol} (h : g.Yields xs ys) (before : List Symbol) :
    g.Yields (before ++ xs) (before ++ ys) := by
  refine Relation.ReflTransGen.lift (before ++ ·) ?_ _ _ h
  rintro _ _ ⟨hr, b, a⟩
  have hstep := Rewrites.rule hr (before ++ b) a
  rwa [List.append_assoc, List.append_assoc] at hstep

theorem Yields.append_right {xs ys : List Symbol} (h : g.Yields xs ys) (after : List Symbol) :
    g.Yields (xs ++ after) (ys ++ after) := by
  refine Relation.ReflTransGen.lift (· ++ after) ?_ _ _ h
  rintro _ _ ⟨hr, b, a⟩
  have hstep := Rewrites.rule hr b (a ++ after)
  show g.Rewrites (b ++ _ :: a ++ after) (b ++ (_ ++ a) ++ after)
  simpa using hstep

theorem Yields.append {xs xs' ys ys' : List Symbol} (h : g.Yields xs ys) (h' : g.Yields xs' ys') :
    g.Yields (xs ++ xs') (ys ++ ys') :=
  (h.append_right xs').trans (h'.append_left ys)

/-- Every symbol of the string has a rule with a vanishing right side. -/
inductive Vanishes (g : Grammar V) : List Symbol → Prop where
  | nil : Vanishes g []
  | cons {k : Nat} {r : Rule V} {rest : List Symbol} (hr : g.rules[k]? = some r)
      (hv : Vanishes g r.symbols) (hrest : Vanishes g rest) :
      Vanishes g (.nonterminal r.left :: rest)

/-- The string can be brought to start with a terminal. -/
inductive Starts (g : Grammar V) (t : Nat) : List Symbol → Prop where
  | terminal (rest : List Symbol) : Starts g t (.terminal t :: rest)
  /-- The right side of a rule for the first symbol starts with it. -/
  | opened {k : Nat} {r : Rule V} {rest : List Symbol} (hr : g.rules[k]? = some r)
      (h : Starts g t r.symbols) : Starts g t (.nonterminal r.left :: rest)
  /-- The first symbol vanishes, and the rest starts with it. -/
  | skipped {k : Nat} {r : Rule V} {rest : List Symbol} (hr : g.rules[k]? = some r)
      (hv : Vanishes g r.symbols) (h : Starts g t rest) : Starts g t (.nonterminal r.left :: rest)

theorem vanishes_append {xs ys : List Symbol} :
    g.Vanishes (xs ++ ys) ↔ g.Vanishes xs ∧ g.Vanishes ys := by
  induction xs with
  | nil => exact ⟨fun h => ⟨.nil, h⟩, fun h => h.2⟩
  | cons x xs ih =>
    constructor
    · intro h
      cases h with
      | cons hr hv hrest => exact ⟨.cons hr hv (ih.1 hrest).1, (ih.1 hrest).2⟩
    · rintro ⟨h, hys⟩
      cases h with
      | cons hr hv hrest => exact .cons hr hv (ih.2 ⟨hrest, hys⟩)

theorem starts_append {t : Nat} {xs ys : List Symbol} :
    g.Starts t (xs ++ ys) ↔ g.Starts t xs ∨ g.Vanishes xs ∧ g.Starts t ys := by
  induction xs with
  | nil =>
    constructor
    · exact fun h => Or.inr ⟨.nil, h⟩
    · rintro (h | h)
      · cases h
      · exact h.2
  | cons x xs ih =>
    constructor
    · intro h
      cases h with
      | terminal => exact Or.inl (.terminal xs)
      | opened hr h => exact Or.inl (.opened hr h)
      | skipped hr hv h =>
        rcases ih.1 h with h | ⟨hxs, h⟩
        · exact Or.inl (.skipped hr hv h)
        · exact Or.inr ⟨.cons hr hv hxs, h⟩
    · rintro (h | ⟨hxs, h⟩)
      · cases h with
        | terminal => exact .terminal (xs ++ ys)
        | opened hr h => exact .opened hr h
        | skipped hr hv h => exact .skipped hr hv (ih.2 (Or.inl h))
      · cases hxs with
        | cons hr hv hrest => exact .skipped hr hv (ih.2 (Or.inr ⟨hrest, h⟩))

theorem vanishes_cons {x : Symbol} {xs : List Symbol} :
    g.Vanishes (x :: xs) ↔ g.Vanishes [x] ∧ g.Vanishes xs := by
  rw [← List.singleton_append, vanishes_append]

theorem starts_cons {t : Nat} {x : Symbol} {xs : List Symbol} :
    g.Starts t (x :: xs) ↔ g.Starts t [x] ∨ g.Vanishes [x] ∧ g.Starts t xs := by
  rw [← List.singleton_append, starts_append]

/-- A step of a derivation brings no string closer to vanishing. -/
theorem Vanishes.of_rewrites {xs ys : List Symbol} (h : g.Rewrites xs ys) (hv : g.Vanishes ys) :
    g.Vanishes xs := by
  obtain ⟨hr, before, after⟩ := h
  rw [vanishes_append, vanishes_append] at hv
  exact vanishes_append.2 ⟨hv.1, .cons hr hv.2.1 hv.2.2⟩

theorem Starts.of_rewrites {t : Nat} {xs ys : List Symbol} (h : g.Rewrites xs ys)
    (hs : g.Starts t ys) : g.Starts t xs := by
  obtain ⟨hr, before, after⟩ := h
  rw [starts_append, starts_append] at hs
  rw [starts_append]
  rcases hs with hs | ⟨hbefore, hs | ⟨hv, hs⟩⟩
  · exact Or.inl hs
  · exact Or.inr ⟨hbefore, .opened hr hs⟩
  · exact Or.inr ⟨hbefore, .skipped hr hv hs⟩

theorem Vanishes.yields {xs : List Symbol} (h : g.Vanishes xs) : g.Yields xs [] := by
  induction h with
  | nil => exact .refl
  | @cons k r rest hr _ _ ih ihrest =>
    exact (Yields.of_rule hr [] rest).trans (ih.append ihrest)

/-- **A string vanishes exactly if it yields the empty one.** -/
theorem vanishes_iff {xs : List Symbol} : g.Vanishes xs ↔ g.Yields xs [] := by
  refine ⟨Vanishes.yields, fun h => ?_⟩
  induction h using Relation.ReflTransGen.head_induction_on with
  | refl => exact .nil
  | head hstep _ ih => exact ih.of_rewrites hstep

theorem Starts.yields {t : Nat} {xs : List Symbol} (h : g.Starts t xs) :
    ∃ rest, g.Yields xs (.terminal t :: rest) := by
  induction h with
  | terminal rest => exact ⟨rest, .refl⟩
  | @opened k r rest hr _ ih =>
    obtain ⟨tail, h⟩ := ih
    exact ⟨tail ++ rest, (Yields.of_rule hr [] rest).trans (h.append_right rest)⟩
  | @skipped k r rest hr hv _ ih =>
    obtain ⟨tail, h⟩ := ih
    exact ⟨tail, (Yields.of_rule hr [] rest).trans (hv.yields.append h)⟩

/-- **A string starts with a terminal exactly if it yields a string that does.** -/
theorem starts_iff {t : Nat} {xs : List Symbol} :
    g.Starts t xs ↔ ∃ rest, g.Yields xs (.terminal t :: rest) := by
  refine ⟨Starts.yields, ?_⟩
  rintro ⟨rest, h⟩
  induction h using Relation.ReflTransGen.head_induction_on with
  | refl => exact .terminal rest
  | head hstep _ ih => exact ih.of_rewrites hstep

/-- A string that starts with a terminal has it in one of its places, or has it from a rule. -/
theorem Starts.mem {t : Nat} {xs : List Symbol} (h : g.Starts t xs) :
    .terminal t ∈ xs ∨ ∃ (k : Nat) (r : Rule V), g.rules[k]? = some r ∧ .terminal t ∈ r.symbols := by
  induction h with
  | terminal rest => exact Or.inl List.mem_cons_self
  | opened hr _ ih => exact Or.inr (ih.elim (fun h => ⟨_, _, hr, h⟩) id)
  | skipped _ _ _ ih => exact ih.imp_left (List.mem_cons_of_mem _)

mutual

theorem Derives.yields : ∀ {x : Symbol} {c : ParseTree}, g.Derives x c →
    ∃ ts : List Nat, c.leaves.map (·.kind) = ts.map g.terminalName ∧ g.Yields [x] (ts.map .terminal)
  | _, _, .leaf (t := t) hk => ⟨[t], by simp [ParseTree.leaves, hk], .refl⟩
  | _, _, .node (r := r) hr hc => by
    obtain ⟨ts, hts, h⟩ := DerivesAll.yields hc
    refine ⟨ts, by rwa [ParseTree.leaves], ?_⟩
    have hrule := Yields.of_rule hr [] []
    rw [List.append_nil] at hrule
    exact hrule.trans h

/-- Symbols yield the terminals at the leaves of the trees that derive them. -/
theorem DerivesAll.yields : ∀ {xs : List Symbol} {l : List ParseTree}, g.DerivesAll xs l →
    ∃ ts : List Nat, (ParseTree.leavesAll l).map (·.kind) = ts.map g.terminalName ∧
      g.Yields xs (ts.map .terminal)
  | _, _, .nil => ⟨[], by simp [ParseTree.leavesAll], .refl⟩
  | _, _, .cons hx hxs => by
    obtain ⟨ts, hts, h⟩ := Derives.yields hx
    obtain ⟨us, hus, h'⟩ := DerivesAll.yields hxs
    refine ⟨ts ++ us, ?_, ?_⟩
    · rw [ParseTree.leavesAll, List.map_append, List.map_append, hts, hus]
    · rw [List.map_append]
      exact h.append h'

end

theorem DerivesAll.exists_append {xs ys : List Symbol} {l : List ParseTree}
    (h : g.DerivesAll (xs ++ ys) l) :
    ∃ l₁ l₂, l = l₁ ++ l₂ ∧ g.DerivesAll xs l₁ ∧ g.DerivesAll ys l₂ := by
  induction xs generalizing l with
  | nil => exact ⟨[], l, rfl, .nil, h⟩
  | cons x xs ih =>
    cases h with
    | cons hx hxs =>
      obtain ⟨l₁, l₂, rfl, h₁, h₂⟩ := ih hxs
      exact ⟨_ :: l₁, l₂, rfl, .cons hx h₁, h₂⟩

/-- A step of a derivation puts one node over some of the trees. -/
theorem DerivesAll.of_rewrites {xs ys : List Symbol} {l : List ParseTree} (h : g.Rewrites xs ys)
    (hl : g.DerivesAll ys l) :
    ∃ l', g.DerivesAll xs l' ∧ ParseTree.leavesAll l' = ParseTree.leavesAll l := by
  obtain ⟨hr, before, after⟩ := h
  obtain ⟨l₁, l₂, rfl, hbefore, hl⟩ := hl.exists_append
  obtain ⟨l₂, l₃, rfl, hsymbols, hafter⟩ := hl.exists_append
  refine ⟨_, hbefore.append (.cons (.node hr hsymbols) hafter), ?_⟩
  simp only [ParseTree.leavesAll_append, ParseTree.leavesAll, ParseTree.leaves]

theorem derivesAll_leaves {ts : List Nat} {tokens : List Token}
    (h : tokens.map (·.kind) = ts.map g.terminalName) :
    g.DerivesAll (ts.map .terminal) (tokens.map .leaf) ∧
      ParseTree.leavesAll (tokens.map .leaf) = tokens := by
  induction ts generalizing tokens with
  | nil =>
    obtain rfl := List.map_eq_nil_iff.1 h
    exact ⟨.nil, rfl⟩
  | cons t ts ih =>
    cases tokens with
    | nil => cases h
    | cons token tokens =>
      obtain ⟨hk, hrest⟩ := List.cons.inj h
      obtain ⟨hd, hl⟩ := ih hrest
      refine ⟨.cons (.leaf hk) hd, ?_⟩
      rw [List.map_cons, ParseTree.leavesAll, hl]
      rfl

/-- **A derivation of terminals has parse trees**, with any tokens of these terminals as leaves. -/
theorem exists_trees {xs : List Symbol} {ts : List Nat} {tokens : List Token}
    (h : g.Yields xs (ts.map .terminal)) (hk : tokens.map (·.kind) = ts.map g.terminalName) :
    ∃ l, g.DerivesAll xs l ∧ ParseTree.leavesAll l = tokens := by
  induction h using Relation.ReflTransGen.head_induction_on with
  | refl => exact ⟨_, derivesAll_leaves hk⟩
  | head hstep _ ih =>
    obtain ⟨l, hl, hleaves⟩ := ih
    obtain ⟨l', hl', hsame⟩ := hl.of_rewrites hstep
    exact ⟨l', hl', hsame.trans hleaves⟩

end Grammar

end ParserGen
