import ParserGen.Lexer.Splitter
import ParserGen.Proofs.Pattern.Enclosing

/-!
# Patterns side by side

Patterns between parentheses, with bars between them, stand for the alternatives that the patterns stand
for alone, if case does not count for any of them.

* `Reads`, `ReadsInside`: texts that are read as an expression, whatever stands behind them.
* `SelfContained`: a pattern that also stands for something between parentheses.
* `reads_grouped`: **between parentheses a pattern stands for what it stands for alone.**
* `readAlternatives_joined`: **patterns with bars between them stand for their alternatives.**
* `parse_combine`: **the pattern of a splitter stands for the alternatives of its patterns.**
-/

namespace ParserGen.Pattern

variable {i j i' j' : Input} {r r' : Expr} {n m k : Nat} {parts : List Part} {names : List String}
  {after inner text : List Char}

/-- An expression in a group, if the group has a name. -/
def Expr.named : Option String → Expr → Expr
  | some name, r => .group name r
  | none, r => r

/-- Case does not count. -/
def Flags.caseIgnored : Flags :=
  { caseless := true }

/-! ## Steps of reading -/

theorem parse?_eq_some {pattern : String} : parse? pattern = some r ↔
    ∃ i', readAlternatives (2 * pattern.toList.length + 2) ⟨pattern.toList, {}, []⟩ = some (r, i') ∧
      i'.rest = [] := by
  change (readAlternatives (2 * pattern.toList.length + 2) ⟨pattern.toList, {}, []⟩).bind
    (fun x => if x.2.rest.isEmpty then some x.1 else none) = some r ↔ _
  rw [Option.bind_eq_some_iff]
  constructor
  · rintro ⟨⟨r', i'⟩, hrun, h⟩
    by_cases hrest : i'.rest.isEmpty = true
    · rw [if_pos hrest] at h
      cases h
      exact ⟨i', hrun, List.isEmpty_iff.1 hrest⟩
    · rw [if_neg hrest] at h
      cases h
  · rintro ⟨i', hrun, hrest⟩
    exact ⟨(r, i'), hrun, if_pos (List.isEmpty_iff.2 hrest)⟩

/-- An alternative ends here. -/
def Stops (after : List Char) : Prop :=
  after = [] ∨ (∃ more, after = '|' :: more) ∨ ∃ more, after = ')' :: more

theorem readSequence_stop (h : Stops after) (n : Nat) (parts : List Part) (names : List String) :
    readSequence (n + 1) parts ⟨after, .caseIgnored, names⟩ =
      some (sequence parts, ⟨after, .caseIgnored, names⟩) := by
  rw [readSequence]
  rcases h with rfl | ⟨more, rfl⟩ | ⟨more, rfl⟩ <;> rfl

theorem readSequence_flags (n : Nat) (parts : List Part) (rest : List Char) (names : List String) :
    readSequence (n + 1) parts ⟨'(' :: '?' :: 'i' :: ')' :: rest, {}, names⟩ =
      readSequence n (none :: parts) ⟨rest, .caseIgnored, names⟩ := by
  rw [readSequence]
  rfl

/-- A text that is read as an expression, up to the parenthesis behind it. -/
def ReadsInside (inner : List Char) (r : Expr) : Prop :=
  ∀ n after names r' j', readAlternatives n ⟨inner ++ ')' :: after, .caseIgnored, names⟩ = some (r', j') →
    r' = r ∧ j'.rest = ')' :: after

/-- A text that is read as an expression, up to the end of the alternative. -/
def Reads (text : List Char) (r : Expr) : Prop :=
  ∀ n k after names r' j', Stops after →
    readSequence n (List.replicate k none) ⟨text ++ after, .caseIgnored, names⟩ = some (r', j') →
      r' = r ∧ j'.rest = after ∧ j'.flags = .caseIgnored

/-- A group is read by its contents, up to the parenthesis that closes it. -/
theorem readSequence_group {name : Option String} {cs contents : List Char}
    (hopen : ∀ v j, readOpening ⟨'(' :: cs, .caseIgnored, names⟩ = some (v, j) →
      v = .group name .caseIgnored ∧ j.rest = contents ∧ j.flags = .caseIgnored)
    (h : readSequence (n + 1) parts ⟨'(' :: cs, .caseIgnored, names⟩ = some (r', j')) :
    ∃ names' r mid rest, readAlternatives n ⟨contents, .caseIgnored, names'⟩ = some (r, mid) ∧
      mid.rest = ')' :: rest ∧
      readSequence n (some (.named name r) :: parts) ⟨rest, .caseIgnored, mid.names⟩ =
        some (r', j') := by
  rw [readSequence] at h
  obtain ⟨_, mid, hskip, hrest⟩ := bind_eq_some.1 h
  cases hskip
  obtain ⟨c, mid, hpeek, hmatch⟩ := bind_eq_some.1 hrest
  cases hpeek
  obtain ⟨v, mid, hopening, hgroup⟩ := bind_eq_some.1 hmatch
  obtain ⟨rfl, hrest, hflags⟩ := hopen v mid hopening
  obtain ⟨rest, flags, names'⟩ := mid
  simp only at hrest hflags
  subst hrest hflags
  obtain ⟨outer, mid, hget, hset⟩ := bind_eq_some.1 hgroup
  cases hget
  obtain ⟨_, mid, hmodify, hcontents⟩ := bind_eq_some.1 hset
  cases hmodify
  obtain ⟨s, mid, hbody, hclose⟩ := bind_eq_some.1 hcontents
  obtain ⟨rest', hstop, hreset⟩ := close_eq_some.1 hclose
  exact ⟨names', s, mid, rest', hbody, hstop, by cases name <;> exact hreset⟩

/-- A text between parentheses is an alternative. -/
theorem reads_of_inside {name : Option String} {opening : List Char}
    (hopen : ∀ rest names v j, readOpening ⟨'(' :: (opening ++ rest), .caseIgnored, names⟩ = some (v, j) →
      v = .group name .caseIgnored ∧ j.rest = rest ∧ j.flags = .caseIgnored)
    (hinner : ReadsInside inner r) :
    Reads ('(' :: (opening ++ (inner ++ [')']))) (.named name r) := by
  intro n k after names r' j' hafter h
  cases n with
  | zero => cases h
  | succ n =>
    have htext : '(' :: (opening ++ (inner ++ [')'])) ++ after =
        '(' :: (opening ++ (inner ++ ')' :: after)) := by simp
    rw [htext] at h
    obtain ⟨names', s, mid, rest, hbody, hclose, hdone⟩ :=
      readSequence_group (fun v j => hopen _ _ v j) h
    obtain ⟨rfl, hmid⟩ := hinner _ _ _ _ _ hbody
    obtain rfl : after = rest := (List.cons.inj (hmid.symm.trans hclose)).2
    cases n with
    | zero => cases hdone
    | succ n =>
      rw [readSequence_stop hafter] at hdone
      cases hdone
      exact ⟨sequence_append [some (.named name s)] k, rfl, rfl⟩

theorem readOpening_plain (rest : List Char) (names : List String) (v : Opening) (j : Input)
    (h : readOpening ⟨'(' :: (['?', ':'] ++ rest), .caseIgnored, names⟩ = some (v, j)) :
    v = .group none .caseIgnored ∧ j.rest = rest ∧ j.flags = .caseIgnored := by
  cases h
  exact ⟨rfl, rfl, rfl⟩

/-- A pattern between parentheses is an alternative. -/
theorem reads_grouped (h : ReadsInside inner r) : Reads ('(' :: '?' :: ':' :: (inner ++ [')'])) r :=
  reads_of_inside readOpening_plain h

/-- Alternatives in the group for tokens are an alternative. -/
theorem reads_named (h : ReadsInside inner r) :
    Reads ("(?P<token>".toList ++ (inner ++ [')'])) (.group "token" r) := by
  have hopen : ∀ rest names v j,
      readOpening ⟨'(' :: ("?P<token>".toList ++ rest), .caseIgnored, names⟩ = some (v, j) →
        v = .group (some "token") .caseIgnored ∧ j.rest = rest ∧ j.flags = .caseIgnored := by
    intro rest names v j h
    have hname : (readGroupName ⟨"token".toList ++ '>' :: rest, .caseIgnored, names⟩).bind
        (fun x => some (Opening.group (some x.1) .caseIgnored, x.2)) = some (v, j) := h
    obtain ⟨⟨name, mid⟩, hread, hv⟩ := Option.bind_eq_some_iff.1 hname
    cases hv
    obtain ⟨text, rest', hfit, heq, rfl, rfl⟩ := readGroupName_eq_some hread
    obtain ⟨rfl, rfl⟩ := append_angle_inj (by decide) (isGroupName_not_mem hfit).2 heq
    exact ⟨rfl, rfl, rfl⟩
  exact reads_of_inside hopen h

theorem readRest_of_bar {rest : List Char} (h : i.rest = '|' :: rest)
    (hrun : readRest n r i = some (r', j')) :
    ∃ s, readAlternatives n { i with rest } = some (s, j') ∧ r' = .alt r s := by
  obtain ⟨b, mid, hbar, hmore⟩ := bind_eq_some.1 hrun
  rw [bumpIf_ahead (show i.rest = "|".toList ++ rest from h)] at hbar
  cases hbar
  obtain ⟨s, mid', hmore, hdone⟩ := bind_eq_some.1 hmore
  cases hdone
  exact ⟨s, hmore, rfl⟩

theorem readRest_of_end (hafter : i.rest = [] ∨ ∃ more, i.rest = ')' :: more) (r : Expr) :
    readRest n r i = some (r, i) := by
  have hbar : ¬ "|".toList <+: i.rest := by
    rcases hafter with h | ⟨more, h⟩ <;> rw [h] <;> rintro ⟨rest, hrest⟩ <;> cases hrest
  change (bumpIf "|" i).bind _ = _
  rw [bumpIf_absent hbar]
  rfl

/-- **Texts with bars between them are read as alternatives.** By induction on the texts; what stands
behind the first one begins with a bar. -/
theorem readAlternatives_joined {texts : List (List Char)} {rs : List Expr}
    (h : List.Forall₂ Reads texts rs) (hne : texts ≠ [])
    (hafter : after = [] ∨ ∃ more, after = ')' :: more)
    (hrun : (readSequence n (List.replicate k none) >>= readRest m)
      ⟨['|'].intercalate texts ++ after, .caseIgnored, names⟩ = some (r', j')) :
    r' = .alternatives rs ∧ j'.rest = after := by
  induction h generalizing n m k names r' with
  | nil => exact absurd rfl hne
  | @cons text r texts rs hread hreads ih =>
    obtain ⟨s, mid, hseq, hrest⟩ := bind_eq_some.1 hrun
    cases hreads with
    | nil =>
      rw [List.intercalate_singleton] at hseq
      obtain ⟨rfl, rfl, -⟩ := hread _ _ _ _ _ _ (hafter.imp id Or.inr) hseq
      rw [readRest_of_end hafter] at hrest
      cases hrest
      exact ⟨rfl, rfl⟩
    | @cons text' _ texts _ hread' hreads =>
      rw [List.intercalate_cons_cons, List.append_assoc, List.append_assoc] at hseq
      obtain ⟨rfl, hmid, hflags⟩ := hread _ _ _ _ _ _ (Or.inr (Or.inl ⟨_, rfl⟩)) hseq
      obtain ⟨s, hmore, rfl⟩ := readRest_of_bar hmid hrest
      rw [hflags] at hmore
      cases m with
      | zero => cases hmore
      | succ m =>
        rw [readAlternatives_succ] at hmore
        obtain ⟨rfl, hend⟩ := ih (List.cons_ne_nil text' texts) (k := 0) hmore
        exact ⟨rfl, hend⟩

/-- Alternatives between parentheses, or nothing. -/
theorem readsInside_joined {texts : List (List Char)} {rs : List Expr} (h : List.Forall₂ Reads texts rs)
    (hne : texts ≠ []) : ReadsInside (['|'].intercalate texts) (.alternatives rs) := by
  intro n after names r' j' hrun
  cases n with
  | zero => cases hrun
  | succ n =>
    rw [readAlternatives_succ] at hrun
    exact readAlternatives_joined (k := 0) h hne (Or.inr ⟨after, rfl⟩) hrun

/-- Nothing stands for the empty text. -/
theorem reads_nil : Reads [] .empty := by
  intro n k after names r' j' hafter h
  cases n with
  | zero => cases h
  | succ n =>
    rw [List.nil_append, readSequence_stop hafter] at h
    cases h
    exact ⟨sequence_append [] k, rfl, rfl⟩

/-! ## Patterns alone and between parentheses -/

/-- A pattern that stands for an expression if case does not count, and that can be put between
parentheses. -/
structure SelfContained (pattern : String) (r : Expr) : Prop where
  alone : parse? ("(?i)" ++ pattern) = some r
  enclosed : (parse? ("(?i)(?:" ++ pattern ++ ")")).isSome

/-- What is read of a pattern behind flags. -/
theorem readAlternatives_flags (n : Nat) (rest : List Char) :
    readAlternatives (n + 2) ⟨'(' :: '?' :: 'i' :: ')' :: rest, {}, []⟩ =
      (readSequence n (List.replicate 1 none) >>= readRest (n + 1)) ⟨rest, .caseIgnored, []⟩ := by
  rw [readAlternatives_succ]
  change (readSequence (n + 1) [] _).bind _ = (readSequence n [none] _).bind _
  rw [readSequence_flags]

/-- Between parentheses and with nothing behind, a pattern is read as what it stands for alone. -/
theorem SelfContained.readAlternatives_closed {pattern : String} (h : SelfContained pattern r) :
    ∃ n names mid, readAlternatives n ⟨pattern.toList ++ [')'], .caseIgnored, names⟩ = some (r, mid) ∧
      mid.rest = [')'] := by
  obtain ⟨i', halone, hend⟩ := parse?_eq_some.1 h.alone
  obtain ⟨r', henclosed⟩ := Option.isSome_iff_exists.1 h.enclosed
  obtain ⟨j', henclosed, -⟩ := parse?_eq_some.1 henclosed
  have htext : ("(?i)" ++ pattern).toList = '(' :: '?' :: 'i' :: ')' :: pattern.toList := by
    rw [String.toList_append]
    rfl
  have htext' : ("(?i)(?:" ++ pattern ++ ")").toList =
      '(' :: '?' :: 'i' :: ')' :: '(' :: '?' :: ':' :: (pattern.toList ++ [')']) := by
    rw [String.toList_append, String.toList_append]
    rfl
  rw [htext, readAlternatives_flags] at halone
  rw [htext', readAlternatives_flags] at henclosed
  obtain ⟨s, mid, hgroup, -⟩ := bind_eq_some.1 henclosed
  obtain ⟨names, v, mid, rest, hbody, hclose, -⟩ :=
    readSequence_group (readOpening_plain (pattern.toList ++ [')']) []) hgroup
  rw [readAlternatives_succ] at hbody
  have haligned : Aligned false [] ⟨pattern.toList, .caseIgnored, []⟩
      ⟨pattern.toList ++ [')'], .caseIgnored, names⟩ :=
    ⟨rfl, pattern.toList, (List.append_nil _).symm, rfl⟩
  rcases (agrees_behindFlags ..).agrees haligned halone hbody with hspent | ⟨rfl, hmid⟩
  · -- a comment that goes on past the end would take the parenthesis with it
    have hlength := hspent.length rfl
    rw [hclose] at hlength
    cases hlength
  · obtain ⟨left, hi, hj⟩ := hmid.rest
    obtain rfl : left = [] := (List.append_eq_nil_iff.1 (hi.symm.trans hend)).1
    exact ⟨_ + 1, names, mid, hbody, hj⟩

/-- **Between parentheses a pattern is read as what it stands for alone**, whatever stands behind. -/
theorem SelfContained.readsInside {pattern : String} (h : SelfContained pattern r) :
    ReadsInside pattern.toList r := by
  obtain ⟨n, names, mid, hclosed, hmid⟩ := h.readAlternatives_closed
  intro n' after names' r' j' hrun
  have haligned : Aligned true after ⟨pattern.toList ++ [')'], .caseIgnored, names⟩
      ⟨pattern.toList ++ ')' :: after, .caseIgnored, names'⟩ := ⟨rfl, pattern.toList, rfl, rfl⟩
  rcases (agrees_alternatives n n').1.agrees haligned hclosed hrun with hspent | ⟨rfl, hdone⟩
  · cases hmid.symm.trans hspent.rest
  · obtain ⟨left, hi, hj⟩ := hdone.rest
    have hleft : left ++ [')'] = [] ++ [')'] := hi.symm.trans hmid
    obtain rfl := List.append_cancel_right hleft
    exact ⟨rfl, hj⟩

/-! ## The pattern of a splitter -/

/-- A pattern between parentheses. -/
def groupedText (pattern : String) : List Char :=
  '(' :: '?' :: ':' :: (pattern.toList ++ [')'])

theorem toList_combine (patterns skipped : List String) :
    (Splitter.combine patterns skipped).toList = '(' :: '?' :: 'i' :: ')' :: ['|'].intercalate
      (("(?P<token>".toList ++ (['|'].intercalate (patterns.map groupedText) ++ [')'])) ::
        skipped.map groupedText) := by
  have hgrouped : ∀ ps : List String,
      (ps.map fun p => "(?:" ++ p ++ ")").map String.toList = ps.map groupedText := by
    intro ps
    rw [List.map_map]
    refine List.map_congr_left fun p _ => ?_
    simp [groupedText]
  unfold Splitter.combine
  simp only [String.toList_append, String.toList_intercalate, List.map_cons, hgrouped, List.append_assoc]
  rfl

/-- **The pattern of a splitter stands for the alternatives of its patterns**, those for tokens in the
group for tokens. Without any pattern for tokens the group has the empty text. -/
theorem parse_combine {patterns skipped : List String} {rs ss : List Expr}
    (hP : List.Forall₂ SelfContained (if patterns.isEmpty then [""] else patterns) rs)
    (hS : List.Forall₂ SelfContained skipped ss)
    (h : parse? (Splitter.combine patterns skipped) = some r) :
    r = .joined Splitter.tokenGroup rs ss := by
  have hgrouped : ∀ {ps : List String} {rs : List Expr}, List.Forall₂ SelfContained ps rs →
      List.Forall₂ Reads (ps.map groupedText) rs := by
    intro ps rs h
    rw [List.forall₂_map_left_iff]
    exact h.imp fun _ _ hp => reads_grouped hp.readsInside
  have htokens : ReadsInside (['|'].intercalate (patterns.map groupedText)) (.alternatives rs) := by
    cases patterns with
    | nil =>
      cases hP with
      | cons hp hnil =>
        cases hnil
        have hempty : parse? ("(?i)" ++ "") = some .empty := by decide +kernel
        cases hempty.symm.trans hp.alone
        have hnothing : ReadsInside (['|'].intercalate [[]]) (.alternatives [.empty]) :=
          readsInside_joined (.cons reads_nil .nil) (List.cons_ne_nil [] [])
        exact hnothing
    | cons p ps => exact readsInside_joined (hgrouped hP) (List.cons_ne_nil _ _)
  obtain ⟨i', hrun, hend⟩ := parse?_eq_some.1 h
  rw [toList_combine, readAlternatives_flags, ← List.append_nil (List.intercalate ..)] at hrun
  have hreads := List.Forall₂.cons (reads_named htokens) (hgrouped hS)
  exact (readAlternatives_joined hreads (List.cons_ne_nil _ _) (Or.inl rfl) hrun).1

end ParserGen.Pattern
