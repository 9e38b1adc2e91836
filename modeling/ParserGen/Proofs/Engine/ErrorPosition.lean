import ParserGen.Proofs.Automaton.ViablePrefix
import ParserGen.Proofs.Engine.Completeness

/-!
# Errors are found at the earliest token

The tokens that the engine has passed can be continued: they begin a string of the start symbol,
whatever the policy made of conflicts. Where no conflict was settled the token at which the engine
fails cannot stand there: if a sentence went on with it, the engine would accept that sentence, but up
to this token it does on the sentence what it has done on the stream.

* `viable_of_reaches`: **the tokens passed are viable.**
* `step_withStream`, `reaches_withStream`: the engine does the same on streams that agree up to its
  position.
* `errors_earliest`: **an unexpected token is the first that no sentence goes on with.**
-/

namespace ParserGen

variable {V W : Type} {g : Grammar V} {e : Engine W} {start : TokenStream}

/-- The kinds of the tokens from one index up to another. -/
def TokenStream.kinds (s : TokenStream) (i j : Nat) : List String :=
  (s.tokens.extract i j).toList.map (·.kind)

/-- The stream with other tokens behind an index. -/
def TokenStream.continued (s : TokenStream) {p : Nat} (hle : s.position ≤ p)
    (hlt : p < s.tokens.size) (back : List Token) : TokenStream where
  tokens := s.tokens.extract 0 (p + 1) ++ back.toArray
  position := s.position
  position_lt := by
    simp only [Array.size_append, Array.size_extract]
    omega

theorem TokenStream.getElem?_continued {s : TokenStream} {p i : Nat} {hle : s.position ≤ p}
    {hlt : p < s.tokens.size} {back : List Token} (hi : i ≤ p) :
    (s.continued hle hlt back).tokens[i]? = s.tokens[i]? := by
  have hfront : i < (s.tokens.extract 0 (p + 1)).size := by
    rw [Array.size_extract]
    omega
  unfold TokenStream.continued
  rw [Array.getElem?_append_left hfront, Array.getElem?_extract, Nat.sub_zero, Nat.zero_add,
    if_pos (by omega)]

theorem TokenStream.rest_continued {s : TokenStream} {p : Nat} {hle : s.position ≤ p}
    {hlt : p < s.tokens.size} {back : List Token} :
    (s.continued hle hlt back).rest = (s.tokens.extract s.position (p + 1)).toList ++ back := by
  have hlen : s.position ≤ (s.tokens.extract 0 (p + 1)).toList.length := by
    rw [Array.length_toList, Array.size_extract]
    omega
  unfold TokenStream.continued TokenStream.rest
  simp only [Array.toList_append]
  rw [List.drop_append_of_le_length hlen, Array.toList_extract, Array.toList_extract,
    List.extract_eq_take_drop, List.extract_eq_take_drop, List.drop_zero, Nat.sub_zero,
    List.drop_take]

theorem TokenStream.current_eq {s t : TokenStream}
    (h : s.tokens[s.position]? = t.tokens[t.position]?) : s.current = t.current := by
  rw [Array.getElem?_eq_getElem s.position_lt, Array.getElem?_eq_getElem t.position_lt] at h
  exact Option.some.inj h

namespace Engine

/-- **The tokens passed are viable.** -/
theorem viable_of_reaches (he : e.RunsOn g) {m : Machine W} (h : e.Reaches (.initial start) m) :
    g.Viable (start.kinds start.position m.stream.position) := by
  obtain ⟨w, trees, hstack, hleaves⟩ := (reads_of_reaches he h).stacked
  have hviable := Grammar.viable_of_walk he.wf he.fit hstack.walk hstack.derivesAll
  rwa [hleaves] at hviable

/-- A reduction does not look at the stream. -/
theorem reduce_withStream {k : Nat} {m n : Machine W} (h : e.reduce k m = .next n) :
    n.stream = m.stream ∧ ∀ s, e.reduce k { m with stream := s } = .next { n with stream := s } := by
  unfold reduce at h ⊢
  cases hl : e.reductions.lhs k with
  | none =>
    rw [hl] at h
    cases h
  | some lhs =>
    cases ha : e.reductions.arity k with
    | none =>
      rw [hl, ha] at h
      cases h
    | some arity =>
      simp only [hl, ha] at h ⊢
      split at h
      · cases h
      · rename_i hle
        split at h
        · rename_i next hgoto
          cases h
          refine ⟨rfl, fun s => ?_⟩
          rw [if_neg hle]
        · cases h

theorem position_le_of_step {m n : Machine W} (h : e.step m = .next n) :
    m.stream.position ≤ n.stream.position := by
  rcases step_next_cases h with ⟨p, s, -, hs, rfl⟩ | ⟨k, -, hred⟩
  · rw [(TokenStream.advance_eq_ok_iff.1 hs).2]
    exact Nat.le_succ _
  · rw [(reduce_withStream hred).1]

/-- The engine does the same on a stream that has the same token at its position. -/
theorem step_withStream {m n : Machine W} (h : e.step m = .next n) {s : TokenStream}
    (hpos : s.position = m.stream.position) (hcur : s.current = m.stream.current)
    (hsize : n.stream.position < s.tokens.size) :
    ∃ s', e.step { m with stream := s } = .next { n with stream := s' } ∧
      s'.tokens = s.tokens ∧ s'.position = n.stream.position := by
  rcases step_next_cases h with ⟨p, s₁, ha, hs₁, rfl⟩ | ⟨k, ha, hred⟩
  · have hadvance := (TokenStream.advance_eq_ok_iff.1 hs₁).2
    simp only at hsize
    rcases s.advance_cases with ⟨s', hs', htokens, hpos'⟩ | ⟨-, hlast⟩
    · refine ⟨s', ?_, htokens, ?_⟩
      · unfold step shift
        simp only [hcur, ha, hs']
      · simp only
        omega
    · omega
  · obtain ⟨hstream, hsame⟩ := reduce_withStream hred
    refine ⟨s, ?_, rfl, by rw [hpos, hstream]⟩
    unfold step
    simp only [hcur, ha]
    exact hsame s

/-- **On a stream with the same tokens up to where it is, the engine comes to the same place.** -/
theorem reaches_withStream (he : e.RunsOn g) {n : Machine W} (h : e.Reaches (.initial start) n)
    {start' : TokenStream} (hpos : start'.position = start.position)
    (hagree : ∀ i ≤ n.stream.position, start'.tokens[i]? = start.tokens[i]?) :
    ∃ s, e.Reaches (.initial start') { n with stream := s } ∧ s.position = n.stream.position ∧
      s.tokens = start'.tokens ∧ s.current = n.stream.current := by
  induction h with
  | refl =>
    refine ⟨start', .refl, hpos, rfl, TokenStream.current_eq ?_⟩
    rw [hpos]
    exact hagree _ le_rfl
  | @tail m n hreach hstep ih =>
    have hle := position_le_of_step hstep
    obtain ⟨s, hreach', hs, htokens, hcur⟩ := ih fun i hi => hagree i (hi.trans hle)
    -- the token that comes next is there too
    have hn : n.stream.tokens = start.tokens := (reads_of_reaches he (hreach.tail hstep)).tokens
    have hsame : s.tokens[n.stream.position]? = n.stream.tokens[n.stream.position]? := by
      rw [htokens, hn]
      exact hagree _ le_rfl
    have hsize : n.stream.position < s.tokens.size := by
      rw [Array.getElem?_eq_getElem n.stream.position_lt] at hsame
      exact (Array.getElem?_eq_some_iff.1 hsame).1
    obtain ⟨s', hstep', htokens', hs'⟩ := step_withStream hstep hs hcur hsize
    refine ⟨s', hreach'.tail hstep', hs', htokens'.trans htokens, TokenStream.current_eq ?_⟩
    rw [htokens', hs']
    exact hsame

/-- An unexpected token is one for which the table has no action. -/
theorem action?_of_unexpected {m m' : Machine W} {token : Token} {expected : List String}
    (h : e.step m = .done (.error (.unexpectedToken token expected)) m') :
    m' = m ∧ e.table.action? (Machine.topState m.stack) m.stream.current.kind = none := by
  unfold step at h
  simp only at h
  split at h
  · unfold shift at h
    split at h <;> cases h
  · unfold reduce at h
    split at h
    · split at h
      · cases h
      · simp only at h
        split at h <;> cases h
    · cases h
  · unfold accept at h
    split at h <;> cases h
  · rename_i ha
    cases h
    exact ⟨rfl, ha⟩

/-- **The engine accepts every sentence**, if the table holds every action that the automaton
proposes. -/
theorem accepts_sentence (he : e.RunsOn g) (hd : e.Decided g) {kinds : List String}
    (hs : g.IsSentence kinds) {stream : TokenStream}
    (hrest : stream.rest.map (·.kind) = kinds ++ [Token.eofKind]) :
    ∃ steps v m, ∀ fuel, steps ≤ fuel → e.run fuel (.initial stream) = some (.ok v, m) := by
  obtain ⟨tokens, last, hsplit, hkinds, hlast⟩ := List.map_eq_append_iff.1 hrest
  obtain ⟨eof, rfl, heof⟩ := List.map_eq_singleton_iff.1 hlast
  obtain ⟨ts, hts, hy⟩ := hs
  obtain ⟨trees, htrees, hleaves⟩ := Grammar.exists_trees hy (hkinds.trans hts)
  cases htrees with
  | cons htree hnil =>
    cases hnil
    rw [ParseTree.leavesAll, ParseTree.leavesAll, List.append_nil] at hleaves
    rw [← hleaves] at hsplit
    obtain ⟨steps, m, hrun⟩ := accepts_tree he hd htree hsplit heof
    exact ⟨steps, _, m, hrun⟩

/-- **No sentence goes on with a token for which the table has no action**: on the stream of that
sentence the engine would fail as well. -/
theorem not_sentence_of_unexpected (he : e.RunsOn g) (hd : e.Decided g) {m : Machine W}
    (h : e.Reaches (.initial start) m)
    (ha : e.table.action? (Machine.topState m.stack) m.stream.current.kind = none)
    {kinds : List String} (hs : g.IsSentence kinds) :
    ¬ start.kinds start.position (m.stream.position + 1) <+: kinds ++ [Token.eofKind] := by
  rintro ⟨tail, htail⟩
  have hread := reads_of_reaches he h
  have hlt : m.stream.position < start.tokens.size := hread.tokens ▸ m.stream.position_lt
  -- the sentence has the tokens of the stream as far as the engine has looked at them
  let stream := start.continued hread.position hlt (tail.map fun kind => ⟨kind, kind, 1, 0⟩)
  have hrest : stream.rest.map (·.kind) = kinds ++ [Token.eofKind] := by
    rw [TokenStream.rest_continued, List.map_append, List.map_map, ← htail]
    congr 1
    exact List.map_id tail
  obtain ⟨steps, v, m', hrun⟩ := accepts_sentence he hd hs hrest
  have hpos : stream.position = start.position := rfl
  obtain ⟨s, hreach, -, -, hcur⟩ := reaches_withStream he h hpos fun i hi =>
    TokenStream.getElem?_continued hi
  have hdone : e.step { m with stream := s } = .done (.error (.unexpectedToken s.current
      (e.table.expected (Machine.topState m.stack)))) { m with stream := s } := by
    unfold step
    simp only [hcur, ha]
  obtain ⟨steps', hrun'⟩ := run_of_reaches hreach hdone
  have hboth := (hrun (steps + steps') (by omega)).symm.trans (hrun' (steps + steps') (by omega))
  cases hboth

end Engine

section Parser

variable {r : Synthesis} [Inhabited V]

/-- **Errors are found at the earliest token.** At every step of a run, under whatever policy the table
was made, the kinds of the tokens passed begin a string that the start symbol yields. If no conflict
was settled and the parser fails at a token, then the tokens before it are still such a beginning, but
no sentence followed by `$eof` begins with the kinds of these tokens and of that one. Rule numbers and
lengths are such that the codes of items do not overflow. -/
theorem errors_earliest (hg : g.Defined) (hfit : g.CodesFit) (hr : g.analyze.outcome = .ok r)
    (ofToken : Token → V) (stream : TokenStream) :
    (∀ m, ((Parser.mk g r.table).engine ofToken).Reaches (.initial stream) m →
      g.Viable (stream.kinds stream.position m.stream.position)) ∧
    (r.resolved = #[] → ∀ fuel token expected m, (Parser.mk g r.table).parse? ofToken fuel stream =
        some (.error (.unexpectedToken token expected), m) →
      g.Viable (stream.kinds stream.position m.stream.position) ∧
      ∀ kinds, g.IsSentence kinds →
        ¬ stream.kinds stream.position (m.stream.position + 1) <+: kinds ++ [Token.eofKind]) := by
  have he := runsOn_engine hg hfit hr ofToken
  refine ⟨fun m hm => Engine.viable_of_reaches he hm, fun hclean fuel token expected m h => ?_⟩
  have hd := decided_of_unresolved he hr hclean rfl
  obtain ⟨n, hn, hdone⟩ := Engine.exists_reaches_of_run h
  obtain ⟨rfl, ha⟩ := Engine.action?_of_unexpected hdone
  exact ⟨Engine.viable_of_reaches he hn, fun kinds hs =>
    Engine.not_sentence_of_unexpected he hd hn ha hs⟩

/-- After `( )` nothing can follow but the end. -/
theorem brackets_error :
    Grammar.brackets.Viable ["(", ")"] ∧
      ∀ kinds, Grammar.brackets.IsSentence kinds → ¬ ["(", ")", ")"] <+: kinds ++ [Token.eofKind] := by
  have hrun : ((Parser.mk Grammar.brackets bracketSynthesis.table).parse? (fun _ => 0) 20
      (.ofTokens (spelled ["(", ")", ")"]))).map (fun p => (p.1, p.2.stream.position)) =
        some (.error (.unexpectedToken ⟨")", ")", 1, 1⟩ [Token.eofKind]), 2) := by
    decide +kernel
  obtain ⟨⟨result, m⟩, hm, hresult⟩ := Option.map_eq_some_iff.1 hrun
  obtain ⟨rfl, hpos⟩ := Prod.mk.inj hresult
  obtain ⟨hviable, hsentence⟩ := (errors_earliest Grammar.brackets_defined
    Grammar.brackets_codesFit brackets_analyzed (fun _ => 0) _).2 (by decide +kernel) _ _ _ _ hm
  simp only at hpos
  rw [hpos] at hviable hsentence
  exact ⟨hviable, hsentence⟩

end Parser

end ParserGen
