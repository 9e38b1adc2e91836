import ParserGen.Proofs.Pattern.Surroundings

/-!
# Patterns between parentheses

A pattern that is read on its own is also read behind an opening parenthesis, with the closing one and
any text after it. Both readings look at the same characters until the first comes to its end, where
the second one finds the parenthesis. No reader of the pattern syntax takes that parenthesis for one of
its own, since none is part of an escape, of the name of a class or of the name of a group.

* `agrees_readEscape` and `agrees_readPrimitive`: escapes and single characters.
* `agrees_classes`: classes between brackets, with classes by name, ranges and nested classes.
* `agrees_readOpening`: what opens a group, which is its name or its flags.
* `agrees_readBounds`: the bounds of a repetition.
* `agrees_alternatives`: alternatives and sequences, with whatever fuel either reading has left.
-/

namespace ParserGen.Pattern

variable {closed : Bool} {tail : List Char} {i j i' j' : Input}

/-! ## Escapes -/

/-- The name of a word boundary, up to the brace that closes it. -/
def readBoundaryName : Read Assertion := do
  let name ← takeWhileSpaced (fun c => c.isAlpha || c == '-') (← get).rest.length
  if (← peek) != '\x7d' then failure
  bump
  namedBoundary? (String.ofList name)

theorem agrees_readBoundaryName : Agrees closed tail readBoundaryName readBoundaryName := by
  refine Agrees.sized_bind (agrees_takeWhileSpaced rfl) fun name => ?_
  exact agrees_peek.bind fun c => (agrees_bump.bind fun _ => .lift _).guard

/-- What can come of a word boundary: a plain one, with nothing read, or one with a name. -/
theorem readBoundary_eq_some {a : Assertion} (h : readBoundary i = some (a, i')) :
    (i.rest.head? ≠ some '\x7b' ∧ a = .wordBoundary ∧ i' = i) ∨
      ∃ mid c, i.rest.head? = some '\x7b' ∧ bumpMore i = some ((), mid) ∧ mid.rest.head? = some c ∧
        if (c.isAlpha || c == '-') = true then readBoundaryName mid = some (a, i')
        else a = .wordBoundary ∧ i' = i := by
  obtain ⟨saved, mid, hget, hrest⟩ := bind_eq_some.1 h
  cases hget
  obtain ⟨c, mid, hpeek, hrest⟩ := bind_eq_some.1 hrest
  cases hpeek
  by_cases hbrace : (i.rest.head? != some '\x7b') = true
  · rw [if_pos hbrace] at hrest
    cases hrest
    exact Or.inl ⟨bne_iff_ne.1 hbrace, rfl, rfl⟩
  · rw [if_neg hbrace] at hrest
    obtain ⟨_, mid, hbump, hrest⟩ := bind_eq_some.1 hrest
    obtain ⟨c, mid', hpeek, hname⟩ := bind_eq_some.1 hrest
    obtain ⟨hc, rfl⟩ := peek_eq_some.1 hpeek
    have hname : (if (c.isAlpha || c == '-') = true then readBoundaryName
      else (set i >>= fun _ => pure .wordBoundary : Read Assertion)) mid' = some (a, i') := hname
    refine Or.inr ⟨mid', c, by simpa using hbrace, hbump, hc, ?_⟩
    by_cases htest : (c.isAlpha || c == '-') = true
    · rw [if_pos htest] at hname ⊢
      exact hname
    · rw [if_neg htest] at hname ⊢
      cases hname
      exact ⟨rfl, rfl⟩

theorem readBoundary_shrinks {a : Assertion} (h : readBoundary i = some (a, i')) :
    i'.rest.length ≤ i.rest.length := by
  rcases readBoundary_eq_some h with ⟨-, -, rfl⟩ | ⟨mid, c, -, hbump, -, hname⟩
  · exact Nat.le_refl _
  · by_cases hc : (c.isAlpha || c == '-') = true
    · rw [if_pos hc] at hname
      have hbumps : Agrees false [] bumpMore bumpMore := agrees_bumpMore
      have hnames : Agrees false [] readBoundaryName readBoundaryName := agrees_readBoundaryName
      exact Nat.le_trans (hnames.shrinks hname) (hbumps.shrinks hbump)
    · rw [if_neg hc] at hname
      rw [hname.2]

theorem agrees_readBoundary : Agrees closed tail readBoundary readBoundary := by
  refine ⟨readBoundary_shrinks, readBoundary_shrinks, fun hij h h' => ?_⟩
  rcases readBoundary_eq_some h with ⟨hi, rfl, rfl⟩ | ⟨mid, c, hi, hbump, hc, hname⟩
  · rcases readBoundary_eq_some h' with ⟨-, rfl, rfl⟩ | ⟨mid', c', hj, hbump', hc', hname'⟩
    · exact Or.inr ⟨rfl, hij⟩
    · rcases hij.cases_rest with ⟨c, left, hi', hj'⟩ | ⟨-, hj'⟩
      · rw [hj'] at hj
        rw [hi'] at hi
        exact absurd hj hi
      · rw [hj'] at hj
        cases hj
  · rcases readBoundary_eq_some h' with ⟨hj, -, -⟩ | ⟨mid', c', hj, hbump', hc', hname'⟩
    · exact absurd (hij.head?_eq hi) hj
    · rcases agrees_bumpMore.agrees hij hbump hbump' with hspent | ⟨-, hmid⟩
      · rw [hspent.head?_eq] at hc
        cases hc
      · obtain rfl : c = c' := Option.some.inj ((hmid.head?_eq hc).symm.trans hc')
        by_cases htest : (c.isAlpha || c == '-') = true
        · rw [if_pos htest] at hname hname'
          exact agrees_readBoundaryName.agrees hmid hname hname'
        · rw [if_neg htest] at hname hname'
          obtain ⟨rfl, rfl⟩ := hname
          obtain ⟨rfl, rfl⟩ := hname'
          exact Or.inr ⟨rfl, hij⟩

theorem agrees_readEscape : Agrees closed tail readEscape readEscape := by
  refine agrees_bump.bind fun _ => agrees_peek.bind fun c => ?_
  split
  · exact (agrees_readHex 2).bind fun _ => .pure _
  · exact (agrees_readHex 4).bind fun _ => .pure _
  · exact (agrees_readHex 8).bind fun _ => .pure _
  · refine agrees_bump.bind fun _ => ?_
    split
    -- a letter stands for itself or a class, all but the word boundary and what must not be escaped
    all_goals first
      | exact .pure _
      | exact .ite (.pure _) .failure
      | exact agrees_readBoundary.bind fun _ => .pure _

/-! ## Classes between brackets -/

theorem agrees_foldCase (s : CharSet) : Agrees closed tail (foldCase s) (foldCase s) :=
  .get_bind fun i j h => by
    rw [h]
    exact .pure _

theorem agrees_combine (left : Option (ClassOperator × CharSet)) (right : CharSet) :
    Agrees closed tail (combine left right) (combine left right) := by
  cases left with
  | none => exact .pure right
  | some left =>
    obtain ⟨op, s⟩ := left
    refine (agrees_foldCase s).bind fun s => (agrees_foldCase right).bind fun t => ?_
    cases op <;> exact .pure _

theorem agrees_readClassAtom : Agrees closed tail readClassAtom readClassAtom :=
  agrees_peek.bind fun _ => .ite agrees_readEscape (agrees_bump.bind fun _ => .pure _)

/-! ## Classes by name -/

/-- Classes have names of letters only. -/
theorem named?_letters {name : List Char} {s : CharSet}
    (h : CharSet.named? (String.ofList name) = some s) {c : Char} (hc : c.isAlpha = false) :
    c ∉ name := by
  have hletters : ∀ {text : String}, CharSet.named? text = some s →
      text.toList.all Char.isAlpha = true := by
    intro text h
    unfold CharSet.named? at h
    split at h
    all_goals first
      | decide
      | cases h
  have hall := hletters h
  rw [String.toList_ofList, List.all_eq_true] at hall
  intro hmem
  rw [hall c hmem] at hc
  cases hc

/-- A text that names a class. -/
inductive NamesClass : List Char → CharSet → Prop
  | plain {name : List Char} {s : CharSet} (h : CharSet.named? (String.ofList name) = some s) :
      NamesClass ('[' :: ':' :: (name ++ [':', ']'])) s
  | negated {name : List Char} {s : CharSet} (h : CharSet.named? (String.ofList name) = some s) :
      NamesClass ('[' :: ':' :: '^' :: (name ++ [':', ']'])) (.complement s)

theorem NamesClass.not_mem {word : List Char} {s : CharSet} (h : NamesClass word s) : ')' ∉ word := by
  cases h with
  | plain h => simpa using named?_letters h (by decide)
  | negated h => simpa using named?_letters h (by decide)

/-- A class by name at the beginning of a text, and what is left behind it. -/
def namedClass? : List Char → Option (CharSet × List Char)
  | '[' :: ':' :: rest =>
    let negated := rest.head? == some '^'
    let rest := if negated then rest.tail else rest
    let name := rest.takeWhile (· != ':')
    match rest.drop name.length with
    | ':' :: ']' :: rest =>
      (CharSet.named? (String.ofList name)).map fun s => (if negated then .complement s else s, rest)
    | _ => none
  | _ => none

/-- Takes the class that a name stands for, if it stands for one. -/
def takeNamed (i : Input) (negated : Bool) (rest : List Char) : Option CharSet → Read (Option CharSet)
  | some s => do
    set { i with rest }
    return some (if negated then .complement s else s)
  | none => return none

/-- What comes of a name, given what stands behind it. -/
def readNameEnd (i : Input) (negated : Bool) (name : List Char) : List Char → Read (Option CharSet)
  | ':' :: ']' :: rest => takeNamed i negated rest (CharSet.named? (String.ofList name))
  | _ => return none

theorem readNamedClass?_run (i : Input) : readNamedClass? i =
    (namedClass? i.rest).elim (some (none, i)) fun x => some (some x.1, { i with rest := x.2 }) := by
  obtain ⟨rest, flags, names⟩ := i
  fun_cases namedClass? rest with
  | case1 rest negated rest' name rest'' hdrop =>
    change readNameEnd ⟨'[' :: ':' :: rest, flags, names⟩ negated name (rest'.drop name.length) _ = _
    rw [hdrop, readNameEnd]
    cases CharSet.named? (String.ofList name) <;> rfl
  | case2 rest negated rest' name hno =>
    change readNameEnd ⟨'[' :: ':' :: rest, flags, names⟩ negated name (rest'.drop name.length) _ = _
    rw [readNameEnd]
    · rfl
    · exact hno
  | case3 hno =>
    unfold readNamedClass?
    rw [get_bind_run]
    simp only
    rfl

theorem namedClass?_of_word {word : List Char} {s : CharSet} (h : NamesClass word s) (more : List Char) :
    namedClass? (word ++ more) = some (s, more) := by
  have htake : ∀ {name : List Char} {t : CharSet}, CharSet.named? (String.ofList name) = some t →
      (name ++ ':' :: ']' :: more).takeWhile (· != ':') = name := by
    intro name t hname
    rw [List.takeWhile_append_of_pos]
    · simp
    · exact fun c hc => bne_iff_ne.2 fun heq => named?_letters hname (by decide) (heq ▸ hc)
  cases h with
  | @plain name s h =>
    have hhead : ((name ++ ':' :: ']' :: more).head? == some '^') = false := by
      refine beq_eq_false_iff_ne.2 ?_
      cases name with
      | nil => exact fun heq => absurd (Option.some.inj heq) (by decide)
      | cons c cs =>
        intro heq
        cases heq
        exact named?_letters h (by decide) (List.mem_cons_self ..)
    have hword : '[' :: ':' :: (name ++ [':', ']']) ++ more =
        '[' :: ':' :: (name ++ ':' :: ']' :: more) := by
      simp
    rw [hword, namedClass?]
    simp only [hhead, Bool.false_eq_true, if_false, htake h, List.drop_left, h, Option.map_some]
  | @negated name s h =>
    have hword : '[' :: ':' :: '^' :: (name ++ [':', ']']) ++ more =
        '[' :: ':' :: '^' :: (name ++ ':' :: ']' :: more) := by
      simp
    rw [hword, namedClass?]
    simp only [List.head?_cons, BEq.rfl, if_true, List.tail_cons, htake h, List.drop_left, h,
      Option.map_some]

theorem namedClass?_eq_some {rest rest' : List Char} {s : CharSet}
    (h : namedClass? rest = some (s, rest')) : ∃ word, NamesClass word s ∧ rest = word ++ rest' := by
  revert h
  fun_cases namedClass? rest with
  | case1 rest negated body name rest'' hdrop =>
    intro h
    obtain ⟨t, hnamed, heq⟩ := Option.map_eq_some_iff.1 h
    have hname : body.take name.length = name :=
      (List.prefix_iff_eq_take.1 (List.takeWhile_prefix _)).symm
    have hbody : body = name ++ ':' :: ']' :: rest'' := by
      rw [← hdrop, ← hname, List.length_take_of_le, List.take_append_drop]
      exact (List.takeWhile_prefix _).length_le
    by_cases hneg : (rest.head? == some '^') = true
    · obtain ⟨c, cs, rfl⟩ := List.exists_cons_of_ne_nil (l := rest) (by rintro rfl; cases hneg)
      obtain rfl : c = '^' := by simpa using hneg
      have hcs : cs = name ++ ':' :: ']' :: rest'' := hbody
      cases heq
      exact ⟨_, .negated hnamed, by simp [hcs]⟩
    · have hrest : rest = name ++ ':' :: ']' :: rest'' := by rw [← hbody]; exact (if_neg hneg).symm
      have hs : (if negated = true then t.complement else t) = t := if_neg hneg
      rw [hs] at heq
      cases heq
      exact ⟨_, .plain hnamed, by simp [hrest]⟩
  | case2 => exact fun h => by cases h
  | case3 => exact fun h => by cases h

theorem readNamedClass?_shrinks {o : Option CharSet} (h : readNamedClass? i = some (o, i')) :
    i'.rest.length ≤ i.rest.length := by
  rw [readNamedClass?_run] at h
  cases hclass : namedClass? i.rest with
  | none =>
    rw [hclass] at h
    cases h
    exact Nat.le_refl _
  | some x =>
    obtain ⟨s, rest⟩ := x
    rw [hclass] at h
    cases h
    obtain ⟨word, -, hi⟩ := namedClass?_eq_some hclass
    rw [hi, List.length_append]
    exact Nat.le_add_left ..

theorem agrees_readNamedClass? : Agrees closed tail readNamedClass? readNamedClass? := by
  refine ⟨readNamedClass?_shrinks, readNamedClass?_shrinks, fun {i j} _ _ _ _ hij h h' => Or.inr ?_⟩
  rw [readNamedClass?_run] at h h'
  by_cases hword : ∃ word s left, NamesClass word s ∧ i.rest = word ++ (left ++ closing closed) ∧
      j.rest = word ++ (left ++ ')' :: tail)
  · obtain ⟨word, s, left, hs, hi, hj⟩ := hword
    rw [hi, namedClass?_of_word hs] at h
    rw [hj, namedClass?_of_word hs] at h'
    cases h
    cases h'
    exact ⟨rfl, hij.flags, left, rfl, rfl⟩
  · have hnone : namedClass? i.rest = none ∧ namedClass? j.rest = none := by
      constructor
      · rw [Option.eq_none_iff_forall_ne_some]
        rintro ⟨s, rest⟩ hclass
        obtain ⟨word, hs, hi⟩ := namedClass?_eq_some hclass
        rcases hij.rest_iff hs.not_mem with ⟨left, hboth⟩ | ⟨hno, -⟩
        · exact hword ⟨word, s, left, hs, hboth⟩
        · exact hno ⟨rest, hi.symm⟩
      · rw [Option.eq_none_iff_forall_ne_some]
        rintro ⟨s, rest⟩ hclass
        obtain ⟨word, hs, hj⟩ := namedClass?_eq_some hclass
        rcases hij.rest_iff hs.not_mem with ⟨left, hboth⟩ | ⟨-, hno⟩
        · exact hword ⟨word, s, left, hs, hboth⟩
        · exact hno ⟨rest, hj.symm⟩
    rw [hnone.1] at h
    rw [hnone.2] at h'
    cases h
    cases h'
    exact ⟨rfl, hij⟩

/-! ## Items of classes -/

/-- Whether the hyphen that comes next stands between the ends of a range. -/
def rangeAhead (i : Input) : Bool :=
  let after := if i.flags.spaced then dropSpace i.rest.length i.rest.tail else i.rest.tail
  after.head? != some ']' && after.head? != some '-'

/-- The item of a class that begins with a character, or a range from it on. -/
def readRange (atom : Escape) (isRange : Bool) : Read CharSet :=
  if isRange then do
    bumpMore
    match atom, ← readClassAtom with
    | .literal first, .literal last =>
      if first ≤ last then return .range first last else failure
    | _, _ => failure
  else
    match atom with
    | .literal c => return .single c
    | .set s => return s
    | .assertion _ => failure

theorem agrees_readRange (atom : Escape) (isRange : Bool) :
    Agrees closed tail (readRange atom isRange) (readRange atom isRange) := by
  unfold readRange
  refine .ite (agrees_bumpMore.bind fun _ => agrees_readClassAtom.bind fun last => ?_) ?_
  · split
    · exact .ite (.pure _) .failure
    · exact .failure
  · cases atom with
    | literal c => exact .pure _
    | set s => exact .pure _
    | assertion a => exact .failure

/-- Both readings find the same behind a hyphen, unless the pattern ends there. -/
theorem rangeAhead_eq (hij : Aligned closed tail i j) (atom : Escape) :
    rangeAhead i = rangeAhead j ∨ readRange atom (rangeAhead i) i = none := by
  have hlook : ∀ i : Input, rangeAhead i =
      (i.onward.rest.head? != some ']' && i.onward.rest.head? != some '-') := fun _ => rfl
  rcases agrees_bumpSpace.agrees hij (bumpSpace_eq i) (bumpSpace_eq j) with hspent | ⟨-, honward⟩
  · have hahead : rangeAhead i = true := by
      rw [hlook, hspent.head?_eq]
      rfl
    refine Or.inr ?_
    rw [hahead]
    change (bumpMore i).bind _ = none
    have hmore : bumpMore i = none :=
      Option.eq_none_iff_forall_ne_some.2 fun x h => (bumpMore_eq_some.1 h).1 hspent.rest
    rw [hmore]
    rfl
  · refine Or.inl ?_
    rw [hlook, hlook]
    rcases honward.cases_rest with ⟨c, left, hi, hj⟩ | ⟨hi, hj⟩
    · rw [hi, hj]
      rfl
    · rw [hi, hj]
      cases closed <;> rfl

theorem agrees_readClassItem : Agrees closed tail readClassItem readClassItem := by
  refine agrees_readClassAtom.bind fun atom => agrees_skipSpace.bind fun _ => agrees_peek.bind fun c => ?_
  refine .ite ?_ (agrees_readRange atom false)
  exact Agrees.look (agrees_readRange atom) fun i j hij => rangeAhead_eq hij atom

theorem readHyphens_cons (n : Nat) (s : CharSet) {c : Char} (hc : i.rest.head? = some c) :
    readHyphens (n + 1) s i = (if c == '-' then do
        bumpMore
        readHyphens n (.union s (.single '-'))
      else return s : Read CharSet) i := by
  rw [readHyphens]
  change (peek i).bind _ = _
  rw [peek_eq_some.2 ⟨hc, rfl⟩]
  rfl

theorem readHyphens_fuel (n m : Nat) (i : Input) (s : CharSet) (hne : i.rest ≠ []) (hn : i.rest.length ≤ n)
    (hm : i.rest.length ≤ m) : readHyphens n s i = readHyphens m s i := by
  induction n generalizing m i s with
  | zero => exact absurd (List.length_eq_zero_iff.1 (Nat.le_zero.1 hn)) hne
  | succ n ih =>
    obtain ⟨c, cs, hi⟩ := List.exists_cons_of_ne_nil hne
    have hc : i.rest.head? = some c := congrArg List.head? hi
    rw [hi, List.length_cons] at hn hm
    obtain ⟨m, rfl⟩ : ∃ m', m = m' + 1 := ⟨m - 1, by omega⟩
    rw [readHyphens_cons n s hc, readHyphens_cons m s hc]
    by_cases hhyphen : (c == '-') = true
    · rw [if_pos hhyphen, if_pos hhyphen]
      refine bind_congr_run fun _ mid hmid => ?_
      obtain ⟨hmore, rfl⟩ := bumpMore_eq_some.1 hmid
      have hlength := length_onward_le i
      rw [hi, List.tail_cons] at hlength
      exact ih m i.onward _ hmore (by omega) (by omega)
    · rw [if_neg hhyphen, if_neg hhyphen]

theorem agrees_readHyphens_same (n : Nat) (s : CharSet) :
    Agrees closed tail (readHyphens n s) (readHyphens n s) := by
  induction n generalizing s with
  | zero => exact .pure s
  | succ n ih => exact agrees_peek.bind fun c => .ite (agrees_bumpMore.bind fun _ => ih _) (.pure s)

theorem agrees_readHyphens (s : CharSet) :
    Agrees closed tail (get >>= fun i => readHyphens i.rest.length s)
      (get >>= fun j => readHyphens j.rest.length s) where
  shrinks {i} _ _ h := by
    have hsame : Agrees closed tail _ _ := agrees_readHyphens_same i.rest.length s
    exact hsame.shrinks h
  shrinks' {j} _ _ h := by
    have hsame : Agrees closed tail _ _ := agrees_readHyphens_same j.rest.length s
    exact hsame.shrinks' h
  agrees {i j} i' j' v w hij h h' := by
    have h : readHyphens i.rest.length s i = some (v, i') := h
    have h' : readHyphens j.rest.length s j = some (w, j') := h'
    have hne : j.rest ≠ [] := by
      obtain ⟨left, -, hj⟩ := hij.rest
      rw [hj]
      exact List.append_ne_nil_of_right_ne_nil left (List.cons_ne_nil _ _)
    by_cases hnil : i.rest = []
    · -- the pattern ends here, and the parenthesis in the second text is no hyphen
      have hj : j.rest = ')' :: tail := by
        rcases hij.cases_rest with ⟨c, left, hi, -⟩ | ⟨-, hj⟩
        · cases hnil.symm.trans hi
        · exact hj
      rw [hnil] at h
      rw [hj, List.length_cons, readHyphens_cons _ s (congrArg List.head? hj)] at h'
      cases h
      cases h'
      exact Or.inr ⟨rfl, hij⟩
    · rw [readHyphens_fuel _ (max i.rest.length j.rest.length) i s hnil (Nat.le_refl _)
        (Nat.le_max_left ..)] at h
      rw [readHyphens_fuel _ (max i.rest.length j.rest.length) j s hne (Nat.le_refl _)
        (Nat.le_max_right ..)] at h'
      exact (agrees_readHyphens_same _ s).agrees hij h h'

/-! ## Classes and their items -/

/-- What stands in a class behind its opening bracket and the mark that negates it. -/
def readClassBody (fuel : Nat) (negated : Bool) : Read CharSet := do
  let s ← readHyphens (← get).rest.length .empty
  let s ← if s = .empty ∧ (← peek) = ']' then
      bumpMore
      pure (CharSet.single ']')
    else pure s
  let s ← readClassItems fuel none s
  let s ← foldCase s
  return if negated then .complement s else s

section Classes

variable {n m : Nat}
  (hitems : ∀ left s, Agrees closed tail (readClassItems n left s) (readClassItems m left s))

include hitems

theorem agrees_readClassBody (negated : Bool) :
    Agrees closed tail (readClassBody n negated) (readClassBody m negated) := by
  refine Agrees.sized_bind (f := fun n => readHyphens n .empty) (g := fun n => readHyphens n .empty)
    (agrees_readHyphens .empty) fun s => agrees_peek.bind fun c => ?_
  have hrest : ∀ s, Agrees closed tail _ _ := fun s =>
    (hitems none s).bind fun s => (agrees_foldCase s).bind fun s =>
      Agrees.pure (if negated then .complement s else s)
  exact .ite (agrees_bumpMore.bind fun _ => (Agrees.pure (CharSet.single ']')).bind hrest)
    ((Agrees.pure s).bind hrest)

theorem agrees_readClass_succ : Agrees closed tail (readClass (n + 1)) (readClass (m + 1)) := by
  rw [readClass, readClass]
  refine agrees_bumpMore.bind fun _ => agrees_peek.bind fun c => ?_
  have hbody := agrees_readClassBody hitems (c == '^')
  exact .ite (agrees_bumpMore.bind fun _ => hbody) hbody

theorem agrees_readClassItems_succ (h : Agrees closed tail (readClass n) (readClass m))
    (left : Option (ClassOperator × CharSet)) (s : CharSet) :
    Agrees closed tail (readClassItems (n + 1) left s) (readClassItems (m + 1) left s) := by
  rw [readClassItems, readClassItems]
  refine agrees_skipSpace.bind fun _ => agrees_peek.bind fun c => .ite ?_ (.ite ?_ ?_)
  · refine agrees_readNamedClass?.bind fun t => ?_
    cases t with
    | some t => exact hitems left _
    | none => exact h.bind fun t => hitems left _
  · exact agrees_bump.bind fun _ => agrees_combine left s
  · have hoperator : ∀ op, Agrees closed tail _ _ := fun op =>
      (agrees_combine left s).bind fun t => hitems (some (op, t)) .empty
    refine (agrees_bumpIf (by decide)).bind fun _ => .ite (hoperator _) ?_
    refine (agrees_bumpIf (by decide)).bind fun _ => .ite (hoperator _) ?_
    refine (agrees_bumpIf (by decide)).bind fun _ => .ite (hoperator _) ?_
    exact agrees_readClassItem.bind fun t => hitems left _

end Classes

theorem agrees_classes (n m : Nat) :
    Agrees closed tail (readClass n) (readClass m) ∧ ∀ left s,
      Agrees closed tail (readClassItems n left s) (readClassItems m left s) := by
  refine forall_fuel (P := fun n m => Agrees closed tail (readClass n) (readClass m) ∧ ∀ left s,
    Agrees closed tail (readClassItems n left s) (readClassItems m left s)) ?_ ?_ ?_ ?_ n m
  · exact ⟨.failure, fun _ _ => .failure⟩
  · exact fun _ h => ⟨h.1.failure_left, fun left s => (h.2 left s).failure_left⟩
  · exact fun _ h => ⟨h.1.failure_right, fun left s => (h.2 left s).failure_right⟩
  · exact fun _ _ h => ⟨agrees_readClass_succ h.2, agrees_readClassItems_succ h.2 h.1⟩

/-! ## Groups and flags -/

theorem agrees_readFlags (n m : Nat) (on : Bool) (seen : List Char) (flags : Flags) :
    Agrees closed tail (readFlags n on seen flags) (readFlags m on seen flags) := by
  revert on seen flags
  refine forall_fuel (P := fun n m => ∀ on seen flags,
    Agrees closed tail (readFlags n on seen flags) (readFlags m on seen flags)) ?_ ?_ ?_ ?_ n m
  · exact fun _ _ _ => .failure
  · exact fun _ h on seen flags => (h on seen flags).failure_left
  · exact fun _ h on seen flags => (h on seen flags).failure_right
  · intro n m h on seen flags
    rw [readFlags, readFlags]
    refine agrees_peek.bind fun c => .ite (.ite .failure (.pure _)) (.ite .failure ?_)
    exact agrees_bump.bind fun _ => .ite (h _ _ _) ((Agrees.lift _).bind fun _ => h _ _ _)

/-- The name of a group has letters and digits, and a few other characters. -/
def isGroupName : List Char → Bool
  | [] => false
  | c :: cs => isNameChar true c && cs.all (isNameChar false)

theorem isGroupName_not_mem {name : List Char} (h : isGroupName name = true) :
    ')' ∉ name ∧ '>' ∉ name := by
  cases name with
  | nil => cases h
  | cons c cs =>
    have hmem : ∀ {bad : Char}, (∀ first, isNameChar first bad = false) → bad ∉ c :: cs := by
      intro bad hbad hmem
      obtain ⟨hc, hcs⟩ := Bool.and_eq_true_iff.1 h
      rcases List.mem_cons.1 hmem with rfl | hmem
      · rw [hbad] at hc
        cases hc
      · have := List.all_eq_true.1 hcs bad hmem
        rw [hbad] at this
        cases this
    exact ⟨hmem (by decide), hmem (by decide)⟩

/-- What comes of the name of a group, given what stands behind it. -/
def readGroupNameEnd (i : Input) (name : List Char) : List Char → Read String
  | '>' :: rest =>
    if isGroupName name && !i.names.contains (String.ofList name) then do
      set { i with rest, names := String.ofList name :: i.names }
      return String.ofList name
    else failure
  | _ => failure

/-- A name of a group stands before the angle that closes it. -/
theorem readGroupName_eq_some {v : String} (h : readGroupName i = some (v, i')) :
    ∃ name rest, isGroupName name = true ∧ i.rest = name ++ '>' :: rest ∧ v = String.ofList name ∧
      i' = { i with rest, names := v :: i.names } := by
  have hname : i.rest.take (i.rest.takeWhile (· != '>')).length = i.rest.takeWhile (· != '>') :=
    (List.prefix_iff_eq_take.1 (List.takeWhile_prefix _)).symm
  have hsplit := List.take_append_drop (i.rest.takeWhile (· != '>')).length i.rest
  rw [hname] at hsplit
  have hrun : readGroupNameEnd i (i.rest.takeWhile (· != '>'))
      (i.rest.drop (i.rest.takeWhile (· != '>')).length) i = some (v, i') := h
  generalize i.rest.takeWhile (· != '>') = name at hrun hsplit
  revert hrun hsplit
  fun_cases readGroupNameEnd i name (i.rest.drop name.length) with
  | case1 rest hfit =>
    intro hrun hsplit
    cases hrun
    exact ⟨name, rest, (Bool.and_eq_true_iff.1 hfit).1, hsplit.symm, rfl, rfl⟩
  | case2 => exact fun hrun => by cases hrun
  | case3 => exact fun hrun => by cases hrun

/-- The first angle ends a name. -/
theorem append_angle_inj {name name' rest rest' : List Char} (h : '>' ∉ name) (h' : '>' ∉ name')
    (heq : name ++ '>' :: rest = name' ++ '>' :: rest') : name = name' ∧ rest = rest' := by
  have htake : ∀ {name rest : List Char}, '>' ∉ name →
      (name ++ '>' :: rest).takeWhile (· != '>') = name := by
    intro name rest hname
    rw [List.takeWhile_append_of_pos]
    · simp
    · exact fun c hc => bne_iff_ne.2 fun heq => hname (heq ▸ hc)
  have hname : (name ++ '>' :: rest).takeWhile (· != '>') = name := htake h
  rw [heq, htake h'] at hname
  subst hname
  exact ⟨rfl, (List.cons.inj (List.append_cancel_left heq)).2⟩

theorem agrees_readGroupName : Agrees closed tail readGroupName readGroupName := by
  have hshrinks : ∀ {i : Input} {v : String} {i' : Input}, readGroupName i = some (v, i') →
      i'.rest.length ≤ i.rest.length := by
    intro i v i' h
    obtain ⟨name, rest, -, hi, rfl, rfl⟩ := readGroupName_eq_some h
    rw [hi, List.length_append, List.length_cons]
    exact Nat.le_trans (Nat.le_succ _) (Nat.le_add_left ..)
  refine ⟨hshrinks, hshrinks, fun hij h h' => Or.inr ?_⟩
  obtain ⟨name, rest, hname, hi, rfl, rfl⟩ := readGroupName_eq_some h
  obtain ⟨name', rest', hname', hj, rfl, rfl⟩ := readGroupName_eq_some h'
  have hword : ')' ∉ name ++ ['>'] := by simpa using (isGroupName_not_mem hname).1
  rcases hij.rest_iff hword with ⟨left, hleft, hleft'⟩ | ⟨hno, -⟩
  · rw [List.append_assoc] at hleft hleft'
    have hrest : rest = left ++ closing closed :=
      (List.cons.inj (List.append_cancel_left (hi.symm.trans hleft))).2
    obtain ⟨rfl, hrest'⟩ := append_angle_inj (isGroupName_not_mem hname').2 (isGroupName_not_mem hname).2
      (hj.symm.trans hleft')
    exact ⟨rfl, hij.flags, left, hrest, hrest'⟩
  · exact absurd ⟨rest, by rw [hi, List.append_assoc]; rfl⟩ hno

theorem agrees_readOpening : Agrees closed tail readOpening readOpening := by
  refine agrees_bumpSpace.bind fun _ => .get_bind fun i j hflags => .guard ?_
  rw [hflags]
  refine (agrees_bumpIf (by decide)).bind fun _ => (agrees_bumpIf (by decide)).bind fun _ => ?_
  refine .ite (agrees_readGroupName.bind fun _ => .pure _) ?_
  refine (agrees_bumpIf (by decide)).bind fun _ => .ite ?_ (.pure _)
  refine agrees_peek.bind fun start => (agrees_readFlags ..).bind fun flags => ?_
  exact agrees_peek.bind fun stop => agrees_bump.bind fun _ => .ite (.pure _) (.ite .failure (.pure _))

/-! ## Expressions -/

theorem agrees_literal (c : Char) : Agrees closed tail (literal c) (literal c) :=
  (agrees_foldCase _).bind fun _ => .pure _

theorem agrees_readPrimitive : Agrees closed tail readPrimitive readPrimitive := by
  refine .get_bind fun i j hflags => ?_
  rw [hflags]
  refine agrees_peek.bind fun c => ?_
  split
  · refine agrees_readEscape.bind fun e => ?_
    cases e with
    | literal c => exact agrees_literal c
    | set s => exact .pure _
    | assertion a => exact .pure _
  · exact agrees_bump.bind fun _ => .pure _
  · exact agrees_bump.bind fun _ => .pure _
  · exact agrees_bump.bind fun _ => .pure _
  · exact agrees_bump.bind fun _ => agrees_literal _

/-- The end of the bounds of a repetition, which must fit together. -/
def readBoundsEnd (min : Nat) (max : Option Nat) : Read (Nat × Option Nat) := do
  if (← peek) != '\x7d' then failure
  if max.any (· < min) then failure
  bumpSpace
  return (min, max)

theorem agrees_readBoundsEnd (min : Nat) (max : Option Nat) :
    Agrees closed tail (readBoundsEnd min max) (readBoundsEnd min max) :=
  agrees_peek.bind fun _ => .guard (.guard (agrees_bumpSpace.bind fun _ => .pure _))

theorem agrees_readBounds : Agrees closed tail readBounds readBounds := by
  refine agrees_bumpMore.bind fun _ => agrees_readDecimal.bind fun min => agrees_peek.bind fun c => ?_
  refine .ite (agrees_bumpMore.bind fun _ => agrees_peek.bind fun c => .ite ?_ ?_) ?_
  · exact (Agrees.pure none).bind (agrees_readBoundsEnd min)
  · exact agrees_readDecimal.bind fun n => (Agrees.pure (some n)).bind (agrees_readBoundsEnd min)
  · exact (Agrees.pure (some min)).bind (agrees_readBoundsEnd min)

theorem agrees_repeatLast (min : Nat) (max : Option Nat) (parts : List Part) :
    Agrees closed tail (repeatLast min max parts) (repeatLast min max parts) := by
  rcases parts with _ | ⟨_ | r, parts⟩
  · exact .failure
  · exact .failure
  · refine (agrees_bumpIf (by decide)).bind fun isLazy => .get_bind fun i j hflags => ?_
    rw [hflags]
    exact .pure _

/-! ## Sequences and alternatives -/

/-- Flags at the beginning of a sequence leave nothing that a repetition could repeat. -/
theorem repeatLast_append (min : Nat) (max : Option Nat) (parts : List Part) (k : Nat) :
    repeatLast min max (parts ++ List.replicate k none) =
      (repeatLast min max parts >>= fun parts => pure (parts ++ List.replicate k none)) := by
  rcases parts with _ | ⟨_ | r, parts⟩
  · cases k <;> rfl
  · rfl
  · simp only [repeatLast, List.cons_append, bind_assoc, pure_bind]

theorem sequence_append (parts : List Part) (k : Nat) :
    sequence (parts ++ List.replicate k none) = sequence parts := by
  unfold sequence
  rw [List.reverse_append, List.filterMap_append]
  simp

theorem agrees_readSequence_succ {n m : Nat}
    (h : Agrees closed tail (readAlternatives n) (readAlternatives m))
    (hs : ∀ k parts,
      Agrees closed tail (readSequence n (parts ++ List.replicate k none)) (readSequence m parts))
    (k : Nat) (parts : List Part) :
    Agrees closed tail (readSequence (n + 1) (parts ++ List.replicate k none))
      (readSequence (m + 1) parts) := by
  have hrepeat : ∀ min max, Agrees closed tail
      (repeatLast min max (parts ++ List.replicate k none) >>= readSequence n)
      (repeatLast min max parts >>= readSequence m) := by
    intro min max
    rw [repeatLast_append, bind_assoc]
    refine (agrees_repeatLast min max parts).bind fun parts => ?_
    rw [pure_bind]
    exact hs k parts
  have hparts : ∀ part,
      Agrees closed tail (readSequence n (part :: (parts ++ List.replicate k none)))
        (readSequence m (part :: parts)) :=
    fun part => hs k (part :: parts)
  rw [readSequence, readSequence, sequence_append]
  refine agrees_skipSpace.bind fun _ => .peek?_bind (fun c => ?_) (.pure _)
  split
  · exact .pure _
  · exact .pure _
  · exact .pure _
  · -- a group, or flags for what follows
    refine agrees_readOpening.bind fun opening => ?_
    cases opening with
    | flags flags => exact (Agrees.setFlags flags).bind fun _ => hparts none
    | group name flags =>
      refine .get_bind fun i j hflags => ?_
      rw [hflags]
      refine (Agrees.setFlags flags).bind fun _ => h.bind fun r => Agrees.close_bind ?_
      exact (Agrees.setFlags _).bind fun _ => hparts _
  · -- a class
    exact (agrees_classes n m).1.bind fun s => hparts _
  · -- marks of repetition
    exact agrees_bump.bind fun _ => hrepeat _ _
  · exact agrees_bump.bind fun _ => hrepeat _ _
  · exact agrees_bump.bind fun _ => hrepeat _ _
  · exact agrees_readBounds.bind fun bounds => hrepeat _ _
  · exact agrees_readPrimitive.bind fun r => hparts _

/-- The alternatives behind the first one. -/
def readRest (fuel : Nat) (r : Expr) : Read Expr := do
  if ← bumpIf "|" then return .alt r (← readAlternatives fuel) else return r

theorem readAlternatives_succ (n : Nat) :
    readAlternatives (n + 1) = readSequence n [] >>= readRest n :=
  rfl

theorem agrees_readRest {n m : Nat} (h : Agrees closed tail (readAlternatives n) (readAlternatives m))
    (r : Expr) : Agrees closed tail (readRest n r) (readRest m r) :=
  (agrees_bumpIf (by decide)).bind fun _ => .ite (h.bind fun _ => .pure _) (.pure r)

/-- **Alternatives are read in the same way whatever stands behind them**, and so are sequences behind
flags. -/
theorem agrees_alternatives (n m : Nat) :
    Agrees closed tail (readAlternatives n) (readAlternatives m) ∧ ∀ k parts,
      Agrees closed tail (readSequence n (parts ++ List.replicate k none)) (readSequence m parts) := by
  refine forall_fuel (P := fun n m => Agrees closed tail (readAlternatives n) (readAlternatives m) ∧
    ∀ k parts, Agrees closed tail (readSequence n (parts ++ List.replicate k none))
      (readSequence m parts)) ?_ ?_ ?_ ?_ n m
  · exact ⟨.failure, fun _ _ => .failure⟩
  · exact fun _ h => ⟨h.1.failure_left, fun k parts => (h.2 k parts).failure_left⟩
  · exact fun _ h => ⟨h.1.failure_right, fun k parts => (h.2 k parts).failure_right⟩
  · intro n m h
    refine ⟨?_, agrees_readSequence_succ h.1 h.2⟩
    rw [readAlternatives_succ, readAlternatives_succ]
    exact (h.2 0 []).bind fun r => agrees_readRest h.1 r

theorem agrees_behindFlags (n m k n' m' : Nat) :
    Agrees closed tail (readSequence n (List.replicate k none) >>= readRest n')
      (readSequence m [] >>= readRest m') :=
  ((agrees_alternatives n m).2 k []).bind fun r => agrees_readRest (agrees_alternatives n' m').1 r

end ParserGen.Pattern
