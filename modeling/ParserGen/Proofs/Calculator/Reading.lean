import ParserGen.Proofs.Calculator.Table

/-!
# What the calculator reads

The engine reads a legal expression from left to right and holds, between two steps, a stack of
contexts with the left operands of their operators. When a token comes before which a context ends, the
expression is closed and becomes an operand of the context below; an operator that the context takes
opens a new one. On the way nothing but legal expressions is put together, and every token is shifted
once and reduced once, so the run ends.

* `reads_expr`: **a legal expression is read.** By induction on the expression, in every context that
  takes its operator.
* `Shape`, `goes_step`: **what holds between two steps**, and that a step keeps it.
* `run_ends`: a run ends with a legal expression for all words or at an unexpected token.
* `calculator_reads_legal`: **the calculator reads exactly the legal expressions.**
-/

namespace ParserGen.Calculator

open Context

variable {t : ParseTable}

/-! ## Legal expressions are read -/

theorem reads_token {m : Machine Node} {p : Nat} {token : Token} {l : List Token}
    (ha : t.action? (Machine.topState m.stack) token.kind = some (.shift p))
    (h : m.stream.rest = token :: l) (hl : l ≠ []) :
    (engine t).ReadsOn m [⟨p, .token token⟩] l := by
  obtain ⟨next, l', rfl⟩ := List.exists_cons_of_ne_nil hl
  exact Engine.step_shift (e := engine t) ha h

section Complete

variable (ht : LaidOut t)

include ht

/-- **A legal expression is read**, if its context takes its operator and the expression ends before
what follows. -/
theorem reads_expr {e : Expr} {ts : List Token} (hr : Rendering e ts) :
    ∀ {c : Context} {m : Machine Node} {k : Kind} {token : Token} {l : List Token}, e.Legal →
      Machine.topState m.stack = c.awaiting → c.Fits e → token.kind = k.name → e.EndsBefore k →
      m.stream.rest = ts ++ token :: l →
      (engine t).ReadsOn m [⟨c.holding, .expr e⟩] (token :: l) := by
  induction hr with
  | @num tok d hkind hd =>
    intro c m k token l _ htop _ hk hends hrest
    have ha : t.action? (Machine.topState m.stack) tok.kind = some (.shift numberState) := by
      rw [htop, hkind]
      exact action?_awaiting ht c .number
    obtain ⟨m', hreach, hstack, hrest'⟩ := reads_token ha hrest (by simp)
    rw [← TokenStream.current_of_rest hrest'] at hk
    have hstep := step_number ht hk htop hends hd hstack
    exact ⟨_, hreach.tail hstep, rfl, hrest'⟩
  | @paren inner opening closing ts ho hc _ ih =>
    intro c m k token l hlegal htop _ hk hends hrest
    have ha : t.action? (Machine.topState m.stack) opening.kind = some (.shift paren.awaiting) := by
      rw [htop, ho]
      exact action?_awaiting ht c .opening
    rw [List.cons_append, List.append_assoc, List.singleton_append] at hrest
    obtain ⟨m₁, hreach₁, hstack₁, hrest₁⟩ := reads_token ha hrest (by simp)
    -- parentheses take every operator, and every context within them ends before the closing one
    obtain ⟨m₂, hreach₂, hstack₂, hrest₂⟩ := ih (c := .paren) (k := .closing) hlegal
      (by rw [hstack₁]; rfl) (fun _ _ => rfl) hc (endsBefore_of_closed (Or.inl rfl)) hrest₁
    have ha₂ : t.action? (Machine.topState m₂.stack) closing.kind = some (.shift closedState) := by
      rw [hstack₂, hc]
      exact action?_holding ht .paren .closing
    obtain ⟨m₃, hreach₃, hstack₃, hrest₃⟩ := reads_token ha₂ hrest₂ (by simp)
    rw [← TokenStream.current_of_rest hrest₃] at hk
    rw [hstack₂, hstack₁] at hstack₃
    have hstep := step_paren ht hk htop hends hstack₃
    exact ⟨_, ((hreach₁.trans hreach₂).trans hreach₃).tail hstep, rfl, hrest₃⟩
  | @neg operand sign ts hs _ ih =>
    intro c m k token l hlegal htop _ hk hends hrest
    have ha : t.action? (Machine.topState m.stack) sign.kind = some (.shift Context.sign.awaiting) := by
      rw [htop, hs]
      exact action?_awaiting ht c (.operator .sub)
    obtain ⟨m₁, hreach₁, hstack₁, hrest₁⟩ := reads_token ha hrest (by simp)
    -- a sign takes no operator, and a legal operand of it has none
    have hfits : Context.sign.Fits operand := by
      intro p hp
      rw [hlegal.2] at hp
      cases hp
    obtain ⟨m₂, hreach₂, hstack₂, hrest₂⟩ := ih hlegal.1 (by rw [hstack₁]; rfl) hfits hk hends.2 hrest₁
    rw [← TokenStream.current_of_rest hrest₂] at hk
    rw [hstack₁] at hstack₂
    have hstep := step_sign ht hk htop hends.1 hstack₂
    exact ⟨_, (hreach₁.trans hreach₂).tail hstep, rfl, hrest₂⟩
  | @binary op left right operator ls rs ho _ _ ihl ihr =>
    intro c m k token l hlegal htop hfits hk hends hrest
    obtain ⟨hl, hr, hallows, hallows'⟩ := hlegal
    -- the context takes the operators of the left operand as well, which ends before this one
    have htakes : c.takes op = true := hfits op rfl
    have hfits' : c.Fits left := fun p hp => takes_trans htakes (allowsLeft_iff.1 hallows p hp)
    rw [List.append_assoc, List.cons_append] at hrest
    obtain ⟨m₁, hreach₁, hstack₁, hrest₁⟩ := ihl (k := .operator op) hl htop hfits' ho
      (endsBefore_of_allowsLeft hl hallows) hrest
    have ha : t.action? (Machine.topState m₁.stack) operator.kind =
        some (.shift (after op).awaiting) := by
      rw [hstack₁, ho]
      exact (action?_holding ht c (.operator op)).trans (if_pos htakes)
    obtain ⟨m₂, hreach₂, hstack₂, hrest₂⟩ := reads_token ha hrest₁ (by simp)
    obtain ⟨m₃, hreach₃, hstack₃, hrest₃⟩ := ihr hr (by rw [hstack₂]; rfl) (allowsRight_iff.1 hallows')
      hk hends.2 hrest₂
    rw [← TokenStream.current_of_rest hrest₃] at hk
    rw [hstack₂, hstack₁] at hstack₃
    obtain ⟨rule, hstep⟩ := exists_step_operator ht hk htop hends.1 hstack₃
    exact ⟨_, ((hreach₁.trans hreach₂).trans hreach₃).tail hstep, rfl, hrest₃⟩

/-- **A legal expression that is followed by `$eof` is what the calculator returns.** -/
theorem run_of_rendering {e : Expr} {body : List Token} {eof : Token} {stream : TokenStream}
    (hr : Rendering e body) (hl : e.Legal) (heof : eof.kind = Token.eofKind)
    (hrest : stream.rest = body ++ [eof]) :
    ∃ steps m, ∀ fuel, steps ≤ fuel →
      (engine t).run fuel (.initial stream) = some (.ok (.expr e), m) := by
  obtain ⟨m, hreach, hstack, hrest'⟩ := reads_expr ht hr (c := .start) (k := .eof)
    (m := .initial stream) hl rfl (fun _ _ => rfl) heof (endsBefore_of_closed (Or.inr rfl)) hrest
  rw [← TokenStream.current_of_rest hrest'] at heof
  obtain ⟨steps, hrun⟩ := Engine.run_of_reaches hreach (step_accept ht heof hstack)
  exact ⟨steps, m, hrun⟩

end Complete

/-! ## Only legal expressions are read -/

/-- The stack while an operand is awaited, with the tokens read. -/
inductive Awaits : Context → List (Frame Node) → List Token → Prop where
  | start : Awaits .start [] []
  | paren {c : Context} {stack : List (Frame Node)} {ts : List Token} {opening : Token}
      (h : Awaits c stack ts) (hk : opening.kind = "(") :
      Awaits .paren (⟨Context.paren.awaiting, .token opening⟩ :: stack) (ts ++ [opening])
  | sign {c : Context} {stack : List (Frame Node)} {ts : List Token} {sign : Token}
      (h : Awaits c stack ts) (hk : sign.kind = BinaryOp.sub.symbol) :
      Awaits .sign (⟨Context.sign.awaiting, .token sign⟩ :: stack) (ts ++ [sign])
  /-- The operator was taken by the context of its left operand. -/
  | after {c : Context} {stack : List (Frame Node)} {ts ls : List Token} {op : BinaryOp}
      {operator : Token} {left : Expr} (h : Awaits c stack ts) (hl : left.Legal)
      (hr : Rendering left ls) (htakes : c.takes op = true) (hallows : op.AllowsLeft left)
      (hk : operator.kind = op.symbol) :
      Awaits (.after op) (⟨(Context.after op).awaiting, .token operator⟩ ::
        ⟨c.holding, .expr left⟩ :: stack) (ts ++ ls ++ [operator])

theorem Awaits.top {c : Context} {stack : List (Frame Node)} {ts : List Token}
    (h : Awaits c stack ts) : Machine.topState stack = c.awaiting := by
  cases h <;> rfl

/-- The stack before a token of some kind, with the tokens read. -/
inductive Shape (k : Kind) : List (Frame Node) → List Token → Prop where
  | awaits {c : Context} {stack : List (Frame Node)} {ts : List Token} (h : Awaits c stack ts) :
      Shape k stack ts
  | number {c : Context} {stack : List (Frame Node)} {ts : List Token} {token : Token} {d : Decimal}
      (h : Awaits c stack ts) (hk : token.kind = numberKind) (hd : Numeral token.value d) :
      Shape k (⟨numberState, .token token⟩ :: stack) (ts ++ [token])
  /-- An operand was read. If it has an operator, that ended before the token. -/
  | holds {c : Context} {stack : List (Frame Node)} {ts es : List Token} {e : Expr}
      (h : Awaits c stack ts) (hl : e.Legal) (hf : c.Fits e) (hr : Rendering e es)
      (hends : ∀ p ∈ e.operator?, (Context.after p).endsBefore k = true) :
      Shape k (⟨c.holding, .expr e⟩ :: stack) (ts ++ es)
  | closed {c : Context} {stack : List (Frame Node)} {ts es : List Token} {opening closing : Token}
      {e : Expr} (h : Awaits c stack ts) (ho : opening.kind = "(") (hl : e.Legal)
      (hr : Rendering e es) (hk : closing.kind = ")") :
      Shape k (⟨closedState, .token closing⟩ :: ⟨Context.paren.holding, .expr e⟩ ::
        ⟨Context.paren.awaiting, .token opening⟩ :: stack) (ts ++ opening :: (es ++ [closing]))

/-- A token of an expression. Those of numbers are numerals. -/
structure IsWord (token : Token) : Prop where
  kind : ∃ k : Kind, k ≠ .eof ∧ token.kind = k.name
  numeral : token.kind = numberKind → ∃ d, Numeral token.value d

theorem Kind.name_ne_eof {k : Kind} (h : k ≠ .eof) : k.name ≠ Token.eofKind := by
  cases k with
  | eof => exact absurd rfl h
  | operator op => cases op <;> decide
  | opening => decide
  | closing => decide
  | number => decide

theorem IsWord.kind_ne {token : Token} (h : IsWord token) : token.kind ≠ Token.eofKind := by
  obtain ⟨k, hk, hname⟩ := h.kind
  rw [hname]
  exact Kind.name_ne_eof hk

/-- The words of an input with the token that closes it. -/
structure Words (body : List Token) (eof : Token) : Prop where
  word : ∀ token ∈ body, IsWord token
  closed : eof.kind = Token.eofKind

theorem Words.exists_kind {body : List Token} {eof token : Token} (h : Words body eof)
    (hm : token ∈ body ++ [eof]) : ∃ k : Kind, token.kind = k.name := by
  rcases List.mem_append.1 hm with hm | hm
  · obtain ⟨k, -, hk⟩ := (h.word token hm).kind
    exact ⟨k, hk⟩
  · rw [List.mem_singleton.1 hm]
    exact ⟨.eof, h.closed⟩

/-- A token is the last one, behind the body, or it is a word. -/
theorem Words.token_cases {body read : List Token} {eof token : Token} {l : List Token}
    (h : Words body eof) (hread : read ++ token :: l = body ++ [eof]) :
    (token = eof ∧ read = body) ∨ IsWord token ∧ ∃ next l', l = next :: l' := by
  cases l with
  | nil =>
    obtain ⟨hbody, htoken⟩ := List.append_inj' hread rfl
    exact Or.inl ⟨List.singleton_inj.1 htoken, hbody⟩
  | cons next l' =>
    have hfront := congrArg List.dropLast hread
    rw [List.dropLast_concat, List.dropLast_append_of_ne_nil (by simp)] at hfront
    refine Or.inr ⟨h.word token ?_, next, l', rfl⟩
    rw [← hfront]
    simp

/-- A token that is not `$eof` is a word, and another token follows it. -/
theorem Words.exists_next {body read : List Token} {eof token : Token} {l : List Token}
    (h : Words body eof) (hread : read ++ token :: l = body ++ [eof])
    (hne : token.kind ≠ Token.eofKind) : IsWord token ∧ ∃ next l', l = next :: l' := by
  refine (h.token_cases hread).resolve_left ?_
  rintro ⟨rfl, -⟩
  exact hne h.closed

/-- Before `$eof` the whole body was read. -/
theorem Words.eq_body {body read : List Token} {eof token : Token} {l : List Token}
    (h : Words body eof) (hread : read ++ token :: l = body ++ [eof])
    (heof : token.kind = Token.eofKind) : read = body := by
  rcases h.token_cases hread with ⟨-, hbody⟩ | ⟨hword, -⟩
  · exact hbody
  · exact absurd heof hword.kind_ne

/-- The machine has read a part of the input. -/
def Between (body : List Token) (eof : Token) (m : Machine Node) : Prop :=
  ∃ read k, m.stream.current.kind = Kind.name k ∧ Shape k m.stack read ∧
    read ++ m.stream.rest = body ++ [eof]

/-- The number of tokens on a stack. -/
def heldTokens : List (Frame Node) → Nat
  | [] => 0
  | ⟨_, .token _⟩ :: rest => heldTokens rest + 1
  | _ :: rest => heldTokens rest

@[simp] theorem heldTokens_token (q : Nat) (token : Token) (rest : List (Frame Node)) :
    heldTokens (⟨q, .token token⟩ :: rest) = heldTokens rest + 1 := rfl

@[simp] theorem heldTokens_expr (q : Nat) (e : Expr) (rest : List (Frame Node)) :
    heldTokens (⟨q, .expr e⟩ :: rest) = heldTokens rest := rfl

/-- Every token counts until it is shifted, and again until it is reduced. -/
def weight (m : Machine Node) : Nat :=
  2 * m.stream.rest.length + heldTokens m.stack

/-- What a step does to a machine between two steps. -/
inductive Goes (body : List Token) (eof : Token) (m : Machine Node) : Step Node → Prop where
  | next {n : Machine Node} (h : Between body eof n) (hw : weight n < weight m) :
      Goes body eof m (.next n)
  | accept {e : Expr} (hl : e.Legal) (hr : Rendering e body) :
      Goes body eof m (.done (.ok (.expr e)) m)
  | unexpected {token : Token} {expected : List String} :
      Goes body eof m (.done (.error (.unexpectedToken token expected)) m)

section Sound

variable {body read : List Token} {eof : Token} {m : Machine Node} {k : Kind}

theorem goes_unexpected (hk : m.stream.current.kind = k.name)
    (ha : t.action? (Machine.topState m.stack) k.name = none) :
    Goes body eof m ((engine t).step m) := by
  rw [← hk] at ha
  have hstep : (engine t).step m = .done (.error (.unexpectedToken m.stream.current
      (t.expected (Machine.topState m.stack)))) m := by
    unfold Engine.step
    simp only [engine, Parser.engine, ha]
  rw [hstep]
  exact .unexpected

/-- A word is shifted, as another token follows. -/
theorem goes_shift (hw : Words body eof) (hk : m.stream.current.kind = k.name) (hne : k ≠ .eof)
    (hread : read ++ m.stream.rest = body ++ [eof]) {p : Nat}
    (ha : t.action? (Machine.topState m.stack) k.name = some (.shift p))
    (hshape : IsWord m.stream.current → ∀ k', Shape k' (⟨p, .token m.stream.current⟩ :: m.stack)
      (read ++ [m.stream.current])) :
    Goes body eof m ((engine t).step m) := by
  have hrest := m.stream.rest_eq_cons
  rw [hrest] at hread
  obtain ⟨hword, next, l, hl⟩ := hw.exists_next hread (hk ▸ Kind.name_ne_eof hne)
  rw [hl] at hrest hread
  obtain ⟨s, hs, hstep⟩ := Engine.exists_step_shift (e := engine t) (hk ▸ ha) hrest
  obtain ⟨k', hk'⟩ := hw.exists_kind (show next ∈ body ++ [eof] by rw [← hread]; simp)
  rw [hstep]
  refine .next ⟨read ++ [m.stream.current], k', ?_, hshape hword k', ?_⟩ ?_
  · rw [TokenStream.current_of_rest hs, hk']
  · rw [hs, ← hread, List.append_assoc]
    rfl
  · unfold weight
    have hheld : heldTokens (⟨p, (engine t).ofToken m.stream.current⟩ :: m.stack) =
        heldTokens m.stack + 1 := rfl
    simp only [hs, hrest, hheld, List.length_cons]
    omega

/-- An expression takes the place of its parts on the stack. -/
theorem goes_reduce (hk : m.stream.current.kind = k.name)
    (hread : read ++ m.stream.rest = body ++ [eof]) {rule : Nat} {stack : List (Frame Node)}
    (hstep : (engine t).step m = .next { m with stack, reduced := rule :: m.reduced })
    (hshape : Shape k stack read)
    (hlt : heldTokens stack < heldTokens m.stack) :
    Goes body eof m ((engine t).step m) := by
  rw [hstep]
  refine .next ⟨read, k, hk, hshape, hread⟩ ?_
  unfold weight
  exact Nat.add_lt_add_left hlt _

variable (ht : LaidOut t) (hk : m.stream.current.kind = k.name)
  (hread : read ++ m.stream.rest = body ++ [eof])

include ht hk hread

/-- Where an operand is awaited, a number, a sign or a parenthesis is shifted. -/
theorem goes_awaits (hw : Words body eof) {c : Context} (h : Awaits c m.stack read) :
    Goes body eof m ((engine t).step m) := by
  have ha : t.action? (Machine.topState m.stack) k.name = k.onOperand := by
    rw [h.top]
    exact action?_awaiting ht c k
  cases k with
  | opening => exact goes_shift hw hk (by simp) hread ha fun _ _ => .awaits (.paren h hk)
  | number =>
    refine goes_shift hw hk (by simp) hread ha fun hword k' => ?_
    obtain ⟨d, hd⟩ := hword.numeral hk
    exact .number h hk hd
  | operator op =>
    cases op with
    | sub => exact goes_shift hw hk (by simp) hread ha fun _ _ => .awaits (.sign h hk)
    | add => exact goes_unexpected hk ha
    | mul => exact goes_unexpected hk ha
    | div => exact goes_unexpected hk ha
    | pow => exact goes_unexpected hk ha
  | closing => exact goes_unexpected hk ha
  | eof => exact goes_unexpected hk ha

/-- Behind a number the machine reduces, or the token is unexpected. -/
theorem goes_number {c : Context} {stack : List (Frame Node)} {ts : List Token} {token : Token}
    {d : Decimal} (h : Awaits c stack ts) (hnum : token.kind = numberKind)
    (hd : Numeral token.value d) (hm : m.stack = ⟨numberState, .token token⟩ :: stack)
    (hts : read = ts ++ [token]) : Goes body eof m ((engine t).step m) := by
  have ha : t.action? (Machine.topState m.stack) k.name = k.onComplete 8 := by
    rw [hm]
    exact (ht.2 k k.mem_all).1
  by_cases hends : Context.sign.endsBefore k = true
  · refine goes_reduce hk hread (step_number ht hk h.top hends hd hm) ?_ ?_
    · rw [hts]
      exact .holds h trivial (by rintro p ⟨⟩) (.num hnum hd) (by rintro p ⟨⟩)
    · rw [hm]
      simp
  · exact goes_unexpected hk (ha.trans (if_neg hends))

/-- So it does behind a closing parenthesis. -/
theorem goes_closed {c : Context} {stack : List (Frame Node)} {ts es : List Token}
    {opening closing : Token} {e : Expr} (h : Awaits c stack ts) (ho : opening.kind = "(")
    (hl : e.Legal) (hr : Rendering e es) (hc : closing.kind = ")")
    (hm : m.stack = ⟨closedState, .token closing⟩ :: ⟨Context.paren.holding, .expr e⟩ ::
      ⟨Context.paren.awaiting, .token opening⟩ :: stack)
    (hts : read = ts ++ opening :: (es ++ [closing])) : Goes body eof m ((engine t).step m) := by
  have ha : t.action? (Machine.topState m.stack) k.name = k.onComplete 6 := by
    rw [hm]
    exact (ht.2 k k.mem_all).2
  by_cases hends : Context.sign.endsBefore k = true
  · refine goes_reduce hk hread (step_paren ht hk h.top hends hm) ?_ ?_
    · rw [hts]
      exact .holds h hl (by rintro p ⟨⟩) (.paren ho hc hr) (by rintro p ⟨⟩)
    · rw [hm]
      simp only [heldTokens_token, heldTokens_expr]
      omega
  · exact goes_unexpected hk (ha.trans (if_neg hends))

/-- Where the context of an operand ends, its sign or operator gets it. -/
theorem goes_ends {c : Context} {stack : List (Frame Node)} {ts es : List Token} {e : Expr}
    (h : Awaits c stack ts) (hl : e.Legal) (hf : c.Fits e) (hr : Rendering e es)
    (hm : m.stack = ⟨c.holding, .expr e⟩ :: stack) (hts : read = ts ++ es) {rule : Nat}
    (hrule : c.rule? = some rule) (hends : c.endsBefore k = true) :
    Goes body eof m ((engine t).step m) := by
  cases h with
  | start => cases hrule
  | paren _ _ => cases hrule
  | @sign c stack ts sign h hs =>
    have hnone : e.operator? = none := by
      cases ho : e.operator? with
      | none => rfl
      | some p => cases hf p ho
    refine goes_reduce hk hread (step_sign ht hk h.top hends hm) ?_ ?_
    · rw [hts, List.append_assoc]
      exact .holds h ⟨hl, hnone⟩ (by rintro p ⟨⟩) (.neg hs hr) (by rintro p ⟨⟩)
    · rw [hm]
      simp
  | @after c stack ts ls op operator left h hleft hrleft htakes hallows ho =>
    obtain ⟨rule, hstep⟩ := exists_step_operator ht hk h.top hends hm
    refine goes_reduce hk hread hstep ?_ ?_
    · rw [hts, List.append_assoc, List.append_assoc]
      -- the operator was noted as taken when it was read, which is what an operand must come with
      refine .holds h ⟨hleft, hl, hallows, allowsRight_iff.2 hf⟩ ?_ (.binary ho hrleft hr) ?_
      · rintro p ⟨⟩
        exact htakes
      · rintro p ⟨⟩
        exact hends
    · rw [hm]
      simp

/-- With an operand read, the machine shifts an operator or a parenthesis, reduces, accepts, or the
token is unexpected. -/
theorem goes_holds (hw : Words body eof) {c : Context} {stack : List (Frame Node)}
    {ts es : List Token} {e : Expr} (h : Awaits c stack ts) (hl : e.Legal) (hf : c.Fits e)
    (hr : Rendering e es) (hends : ∀ p ∈ e.operator?, (Context.after p).endsBefore k = true)
    (hm : m.stack = ⟨c.holding, .expr e⟩ :: stack) (hts : read = ts ++ es) :
    Goes body eof m ((engine t).step m) := by
  have ha : t.action? (Machine.topState m.stack) k.name = c.onKind k := by
    rw [hm]
    exact action?_holding ht c k
  have hreduce : ∀ {rule}, c.rule? = some rule → c.endsBefore k = true →
      Goes body eof m ((engine t).step m) := fun hrule =>
    goes_ends ht hk hread h hl hf hr hm hts hrule
  cases k with
  | opening => exact goes_unexpected hk ha
  | number => exact goes_unexpected hk ha
  | operator op =>
    cases htakes : c.takes op with
    | true =>
      refine goes_shift hw hk (by simp) hread (ha.trans (if_pos htakes)) fun _ _ => ?_
      have hallows : op.AllowsLeft e :=
        allowsLeft_iff.2 fun p hp => by simpa [Context.endsBefore] using hends p hp
      rw [hm, hts]
      exact .awaits (.after h hl hr htakes hallows hk)
    | false =>
      have hend : c.endsBefore (.operator op) = true := by simp [Context.endsBefore, htakes]
      cases c with
      | start => cases htakes
      | paren => cases htakes
      | sign => exact hreduce rfl hend
      | after p => cases p <;> exact hreduce rfl hend
  | closing =>
    cases h with
    | start => exact goes_unexpected hk ha
    | paren h ho =>
      refine goes_shift hw hk (by simp) hread ha fun _ _ => ?_
      rw [hm, hts, List.append_assoc, List.append_assoc]
      exact .closed h ho hl hr hk
    | sign _ _ => exact hreduce rfl rfl
    | @after _ _ _ _ op _ _ _ _ _ _ _ _ => cases op <;> exact hreduce rfl rfl
  | eof =>
    cases h with
    | start =>
      -- no context waits and no token is left, so the expression is made of the whole body
      rw [m.stream.rest_eq_cons] at hread
      obtain rfl : es = body := hw.eq_body (hts ▸ hread) hk
      rw [step_accept ht hk hm]
      exact .accept hl hr
    | paren _ _ => exact goes_unexpected hk ha
    | sign _ _ => exact hreduce rfl rfl
    | @after _ _ _ _ op _ _ _ _ _ _ _ _ => cases op <;> exact hreduce rfl rfl

/-- **What holds between two steps holds after each.** -/
theorem goes_step (hw : Words body eof) (h : Shape k m.stack read) :
    Goes body eof m ((engine t).step m) := by
  generalize hstack : m.stack = stack at h
  generalize hts : read = ts at h
  cases h with
  | awaits h => exact goes_awaits ht hk hread hw (by rw [hstack, hts]; exact h)
  | number h hnum hd => exact goes_number ht hk hread h hnum hd hstack hts
  | holds h hl hf hr hends => exact goes_holds ht hk hread hw h hl hf hr hends hstack hts
  | closed h ho hl hr hc => exact goes_closed ht hk hread h ho hl hr hc hstack hts

end Sound

/-! ## The reader -/

section Reader

variable {body : List Token} {eof : Token}

/-- **A run of enough steps ends**, with a legal expression for the whole body or at an unexpected
token. -/
theorem run_ends (ht : LaidOut t) (hw : Words body eof) {fuel : Nat} {m : Machine Node}
    (h : Between body eof m) (hfuel : weight m < fuel) :
    ∃ result n, (engine t).run fuel m = some (result, n) ∧
      ((∃ e : Expr, result = .ok (.expr e) ∧ e.Legal ∧ Rendering e body) ∨
        ∃ token expected, result = .error (.unexpectedToken token expected)) := by
  induction fuel generalizing m with
  | zero => cases hfuel
  | succ fuel ih =>
    obtain ⟨read, k, hk, hshape, hread⟩ := h
    have hgoes := goes_step ht hk hread hw hshape
    rw [Engine.run]
    generalize (engine t).step m = s at hgoes
    cases hgoes with
    | next h hlt => exact ih h (by omega)
    | @accept e hl hr => exact ⟨_, m, rfl, Or.inl ⟨e, rfl, hl, hr⟩⟩
    | @unexpected token expected => exact ⟨_, m, rfl, Or.inr ⟨token, expected, rfl⟩⟩

theorem rest_ofTokens (hw : Words body eof) :
    (TokenStream.ofTokens (body ++ [eof]).toArray).rest = body ++ [eof] :=
  TokenStream.tokens_ofTokens body (by simp [Token.isEof, hw.closed])

theorem between_initial (hw : Words body eof) {stream : TokenStream}
    (hrest : stream.rest = body ++ [eof]) : Between body eof (.initial stream) := by
  have hm : stream.current ∈ body ++ [eof] := by
    rw [← hrest, stream.rest_eq_cons]
    exact List.mem_cons_self
  obtain ⟨k, hk⟩ := hw.exists_kind hm
  exact ⟨[], k, hk, .awaits .start, hrest⟩

/-- What a reader of expressions makes of a list of tokens. -/
def readTokens (r : Reader Node) (tokens : List Token) : Except SyntaxError Expr :=
  r.parseTokens Node.token stepsPerToken Node.expr? (.ofTokens tokens.toArray)

variable {r : Reader Node} (hg : r.parser.grammar = grammar) (ht : LaidOut r.parser.table)
  (hw : Words body eof)

include hg

theorem readTokens_of_run {tokens : List Token} {result : Except ParseError Node} {m : Machine Node}
    (hrun : (engine r.parser.table).run
      (stepsPerToken * ((TokenStream.ofTokens tokens.toArray).size + 1))
      (.initial (.ofTokens tokens.toArray)) = some (result, m)) :
    (∀ e, result = .ok (.expr e) → readTokens r tokens = .ok e) ∧
      ∀ error, result = .error error → readTokens r tokens = .error (.parse error) := by
  have hengine : r.parser.engine Node.token = engine r.parser.table := by
    unfold engine
    rw [← hg]
  constructor
  · rintro e rfl
    unfold readTokens Reader.parseTokens Parser.parse?
    rw [hengine, hrun]
    rfl
  · rintro error rfl
    unfold readTokens Reader.parseTokens Parser.parse?
    rw [hengine, hrun]

omit hg

include ht hw

/-- The steps that a reader is given are enough. -/
theorem exists_run : ∃ result m, (engine r.parser.table).run
      (stepsPerToken * ((TokenStream.ofTokens (body ++ [eof]).toArray).size + 1))
      (.initial (.ofTokens (body ++ [eof]).toArray)) = some (result, m) ∧
    ((∃ e : Expr, result = .ok (.expr e) ∧ e.Legal ∧ Rendering e body) ∨
      ∃ token expected, result = .error (.unexpectedToken token expected)) := by
  have hrest := rest_ofTokens hw
  have hsize : (TokenStream.ofTokens (body ++ [eof]).toArray).size = body.length + 1 := by
    have hlen := congrArg List.length hrest
    simpa [TokenStream.rest, TokenStream.ofTokens, TokenStream.size] using hlen
  refine run_ends ht hw (between_initial hw hrest) ?_
  have hheld : heldTokens ([] : List (Frame Node)) = 0 := rfl
  unfold weight Machine.initial
  rw [hrest, hsize, hheld, List.length_append, List.length_singleton]
  simp only [stepsPerToken]
  omega

include hg

/-- The calculator returns a legal expression that the words render, or the token that is
unexpected. -/
theorem readTokens_cases :
    (∃ e : Expr, readTokens r (body ++ [eof]) = .ok e ∧ e.Legal ∧ Rendering e body) ∨
      ∃ token expected, readTokens r (body ++ [eof]) =
        .error (.parse (.unexpectedToken token expected)) := by
  obtain ⟨result, m, hrun, hresult⟩ := exists_run ht hw
  obtain ⟨hok, herror⟩ := readTokens_of_run hg hrun
  rcases hresult with ⟨e, he, hl, hr⟩ | ⟨token, expected, he⟩
  · exact Or.inl ⟨e, hok e he, hl, hr⟩
  · exact Or.inr ⟨token, expected, herror _ he⟩

/-- The calculator returns every legal expression that the words render. -/
theorem readTokens_of_rendering {e : Expr} (hl : e.Legal) (hr : Rendering e body) :
    readTokens r (body ++ [eof]) = .ok e := by
  obtain ⟨result, m, hrun, -⟩ := exists_run ht hw
  obtain ⟨steps, m', hreads⟩ := run_of_rendering ht hr hl hw.closed (rest_ofTokens hw)
  have hsame := Engine.run_unique hrun (hreads steps le_rfl)
  exact (readTokens_of_run hg hrun).1 e (congrArg Prod.fst hsame)

omit hg ht hw in
/-- **The calculator reads exactly the legal expressions.** -/
theorem calculator_reads_legal : ∃ r : Reader Node, reader? = some r ∧
    ∀ (body : List Token) (eof : Token), Words body eof →
      (∀ e : Expr, readTokens r (body ++ [eof]) = .ok e ↔ e.Legal ∧ Rendering e body) ∧
      (∀ e e' : Expr, e.Legal → Rendering e body → e'.Legal → Rendering e' body → e = e') ∧
      ((∀ e : Expr, e.Legal → ¬ Rendering e body) → ∃ token expected,
        readTokens r (body ++ [eof]) = .error (.parse (.unexpectedToken token expected))) := by
  obtain ⟨r, hr, hg, ht⟩ := exists_reader
  refine ⟨r, hr, fun body eof hw => ⟨fun e => ⟨fun he => ?_, fun h => ?_⟩, ?_, ?_⟩⟩
  · rcases readTokens_cases hg ht hw with ⟨e', he', hl, hren⟩ | ⟨token, expected, he'⟩
    · rw [he] at he'
      cases he'
      exact ⟨hl, hren⟩
    · rw [he] at he'
      cases he'
  · exact readTokens_of_rendering hg ht hw h.1 h.2
  · intro e e' hl hren hl' hren'
    have he := readTokens_of_rendering hg ht hw hl hren
    rw [readTokens_of_rendering hg ht hw hl' hren'] at he
    exact (Except.ok.inj he).symm
  · intro hno
    rcases readTokens_cases hg ht hw with ⟨e, -, hl, hren⟩ | h
    · exact absurd hren (hno e hl)
    · exact h

end Reader

/-- A token of a kind with a text. -/
def word (kind text : String) : Token :=
  { kind, value := text, line := 1, offset := 1 }

/-- The expression of a natural number. -/
def natural (n : Nat) : Expr :=
  .num (Decimal.toFloat ⟨n, 0⟩)

/-- The words of `-1 ** 2 ** 3 - 4`. -/
def sampleWords : List Token :=
  [word "-" "-", word "NUM" "1", word "**" "**", word "NUM" "2", word "**" "**", word "NUM" "3",
   word "-" "-", word "NUM" "4"]

/-- The expression `((-1) ** (2 ** 3)) - 4`. -/
def sampleExpr : Expr :=
  .binary .sub (.binary .pow (.neg (natural 1)) (.binary .pow (natural 2) (natural 3))) (natural 4)

theorem sample_words : Words sampleWords (Token.eof 1 0) := by
  have hmark : ∀ op : BinaryOp, IsWord (word op.symbol op.symbol) := fun op =>
    ⟨⟨.operator op, by simp, rfl⟩, fun h => absurd h (by cases op <;> decide)⟩
  have hnumber : ∀ text : String, IsDigits text.toList → IsWord (word numberKind text) :=
    fun text h => ⟨⟨.number, by simp, rfl⟩, fun _ => ⟨_, .whole h⟩⟩
  refine ⟨?_, rfl⟩
  unfold sampleWords
  simp only [List.forall_mem_cons]
  exact ⟨hmark .sub, hnumber "1" (by decide), hmark .pow, hnumber "2" (by decide), hmark .pow,
    hnumber "3" (by decide), hmark .sub, hnumber "4" (by decide), by simp⟩

theorem sample_legal : sampleExpr.Legal := by
  simp [sampleExpr, natural, Expr.Legal, Expr.operator?, BinaryOp.AllowsLeft, BinaryOp.AllowsRight,
    BinaryOp.level]

theorem sample_rendering : Rendering sampleExpr sampleWords := by
  have hnumber : ∀ (n : Nat) (text : String), IsDigits text.toList →
      Nat.ofDigitChars 10 text.toList 0 = n → Rendering (natural n) [word numberKind text] := by
    rintro n text h rfl
    exact .num rfl (.whole h)
  have hone := hnumber 1 "1" (by decide) (by decide)
  have htwo := hnumber 2 "2" (by decide) (by decide)
  have hthree := hnumber 3 "3" (by decide) (by decide)
  have hfour := hnumber 4 "4" (by decide) (by decide)
  have hneg : Rendering (.neg (natural 1)) [word "-" "-", word "NUM" "1"] := .neg rfl hone
  have hpow : Rendering (.binary .pow (natural 2) (natural 3))
      [word "NUM" "2", word "**" "**", word "NUM" "3"] := .binary rfl htwo hthree
  have hleft : Rendering (.binary .pow (.neg (natural 1)) (.binary .pow (natural 2) (natural 3)))
      [word "-" "-", word "NUM" "1", word "**" "**", word "NUM" "2", word "**" "**",
       word "NUM" "3"] := .binary rfl hneg hpow
  exact .binary rfl hleft hfour

/-- A sign binds more strongly than a power, and powers group to the right. No expression is without
words. -/
theorem sample_read : ∃ r : Reader Node, reader? = some r ∧ Words sampleWords (Token.eof 1 0) ∧
    readTokens r (sampleWords ++ [Token.eof 1 0]) = .ok sampleExpr ∧
    ∃ token expected,
      readTokens r [Token.eof 1 0] = .error (.parse (.unexpectedToken token expected)) := by
  obtain ⟨r, hr, hreads⟩ := calculator_reads_legal
  have hempty : Words [] (Token.eof 1 0) := ⟨by simp, rfl⟩
  refine ⟨r, hr, sample_words, ?_, (hreads [] _ hempty).2.2 fun e _ h => ?_⟩
  · exact ((hreads sampleWords _ sample_words).1 sampleExpr).2
      ⟨sample_legal, sample_rendering⟩
  · generalize hts : ([] : List Token) = ts at h
    cases h <;> simp at hts

end ParserGen.Calculator
