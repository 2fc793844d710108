import MonkeyLang.Proofs.Spelling

/-!
# One stream of tokens

A lexer can be asked for its tokens in several ways: for the next token, which is the end of input
again and again at last, and for the next token before the end of input, with what is built on that,
which is to skip some, to take some, to count them, or to find the last one.  The whole text at once
is one token after another up to the end of input (`Lexer.tokenize_eq`).  However these calls are
mixed, they take one stream of tokens apart, from its front and without a gap
(`Lexer.answers_ofString`).

A `Call` takes a `portion` off the stream, and its `reply` depends on nothing but this portion and
the place of the end of input.  The two interfaces share the position in the text, while only one of
them sets the flag that says that its end was reported.  So what has to be kept is that the flag is
set at the end only: a lexer `Yields` a stream if it does so, and every call leaves a lexer that
yields what is left of the stream (`Lexer.Yields.answer`).
-/

namespace MonkeyLang

/-! ### Calls -/

/-- A way to ask a lexer for tokens. -/
inductive Call where
  /-- For the next token, be it the end of input. -/
  | nextToken
  /-- For the next token before the end of input. -/
  | next
  /-- For the token behind the next `n` tokens. -/
  | nth (n : Nat)
  /-- For the next `n` tokens. -/
  | take (n : Nat)
  /-- For all tokens that are left. -/
  | rest
  /-- For their number. -/
  | count
  /-- For the last one. -/
  | last
deriving DecidableEq, Repr

/-- What a lexer replies to a call. -/
inductive Reply where
  /-- A token. -/
  | token (token : Token)
  /-- A token, or nothing if there is none. -/
  | item (item : Option Token)
  /-- Some tokens. -/
  | items (items : List Token)
  /-- A number of tokens. -/
  | number (n : Nat)
deriving DecidableEq, Repr

namespace Lexer

/-- The reply to a call, and the lexer behind it. -/
def answer (lexer : Lexer) : Call → Reply × Lexer
  | .nextToken => (.token lexer.nextToken.1, lexer.nextToken.2)
  | .next => (.item lexer.next?.1, lexer.next?.2)
  | .nth n => (.item (lexer.nth? n).1, (lexer.nth? n).2)
  | .take n => (.items (lexer.take n).1, (lexer.take n).2)
  | .rest => (.items lexer.collect.1, lexer.collect.2)
  | .count => (.number lexer.count.1, lexer.count.2)
  | .last => (.item lexer.last?.1, lexer.last?.2)

/-- The replies to some calls, made one after another, and the lexer behind them. -/
def answers (lexer : Lexer) : List Call → List Reply × Lexer
  | [] => ([], lexer)
  | call :: calls =>
    let step := lexer.answer call
    let later := step.2.answers calls
    (step.1 :: later.1, later.2)

end Lexer

namespace Call

/-- The tokens that a call takes off a stream: as many as it asks for, or all if there are fewer. -/
def portion (ahead : List Token) : Call → List Token
  | nextToken | next => ahead.take 1
  | nth n => ahead.take (n + 1)
  | take n => ahead.take n
  | rest | count | last => ahead

/-- The reply to a call that has taken some tokens off a stream which ends at a given place. -/
def reply (finish : Location) (taken : List Token) : Call → Reply
  | nextToken => .token (taken.head?.getD (.endOfInput finish))
  | next => .item taken.head?
  | nth n => .item taken[n]?
  | take _ | rest => .items taken
  | count => .number taken.length
  | last => .item taken.getLast?

/-- What some calls take off a stream, one portion for each call. -/
def portions (ahead : List Token) : List Call → List (List Token)
  | [] => []
  | call :: calls =>
    let taken := call.portion ahead
    taken :: portions (ahead.drop taken.length) calls

/-- A call takes the front of the stream. -/
theorem portion_append (ahead : List Token) (call : Call) :
    call.portion ahead ++ ahead.drop (call.portion ahead).length = ahead := by
  have front : call.portion ahead <+: ahead := by
    cases call with
    | nextToken | next | nth _ | take _ => exact List.take_prefix _ _
    | rest | count | last => exact List.prefix_rfl
  exact List.prefix_iff_eq_append.1 front

end Call

namespace Lexer

/-! ### The whole text at once -/

/-- A text is tokenized by asking for one token after another up to the end of input. -/
theorem tokenize_eq (lexer : Lexer) :
    lexer.tokenize = lexer.nextToken.1 ::
      if lexer.nextToken.1.kind = .endOfInput then [] else lexer.nextToken.2.tokenize := by
  by_cases ended : lexer.nextToken.1.kind = .endOfInput
  · rw [if_pos ended, tokenize, tokens_of_end ended, nextToken_of_end ended, List.nil_append]
  · rw [if_neg ended, tokenize, tokens_of_token ended, tokenize, finish_nextToken, List.cons_append]

/-! ### Single calls -/

/-- The lexer is going to yield these tokens and then the end of input at this place.  The end has
not been reported before. -/
structure Yields (lexer : Lexer) (ahead : List Token) (finish : Location) : Prop where
  tokens : lexer.tokens = ahead
  finish : lexer.finish = finish
  flag : lexer.exhausted = true → ahead = []

namespace Yields

variable {lexer : Lexer} {ahead : List Token} {finish : Location}

theorem nextToken (h : lexer.Yields ahead finish) :
    lexer.nextToken.1 = ahead.head?.getD (.endOfInput finish) ∧
      lexer.nextToken.2.Yields ahead.tail finish := by
  obtain ⟨rfl, rfl, flag⟩ := h
  have flag' : lexer.nextToken.2.exhausted = lexer.exhausted := by
    cases ahead : lexer.rest.dropWhile isSpace with
    | nil => rw [nextToken_of_blank ahead]
    | cons c rest => rw [nextToken_of_ahead ahead]
  refine ⟨?_, lexer.tokens_nextToken, lexer.finish_nextToken, fun set => ?_⟩
  · by_cases ended : lexer.nextToken.1.kind = .endOfInput
    · rw [tokens_of_end ended, nextToken_of_end ended]
      rfl
    · rw [tokens_of_token ended]
      rfl
  · rw [flag (flag' ▸ set)]
    rfl

theorem next? (h : lexer.Yields ahead finish) :
    lexer.next?.1 = ahead.head? ∧ lexer.next?.2.Yields ahead.tail finish := by
  have step := h.nextToken
  by_cases done : lexer.exhausted = true
  · -- the end has been reported, and is reported again
    obtain rfl := h.flag done
    rw [Lexer.next?, if_pos done]
    exact ⟨rfl, h⟩
  rw [Lexer.next?, if_neg done]
  by_cases ended : lexer.nextToken.1.kind = .endOfInput
  · -- the end is reported for the first time
    obtain rfl : ahead = [] := h.tokens.symm.trans (tokens_of_end ended)
    refine ⟨by rw [if_pos ended]; rfl, ?_⟩
    rw [if_pos ended, nextToken_of_end ended]
    exact ⟨tokens_of_end rfl, h.finish, fun _ => rfl⟩
  · rw [if_neg ended]
    refine ⟨?_, step.2⟩
    rw [← h.tokens, tokens_of_token ended]
    rfl

theorem nth? (h : lexer.Yields ahead finish) (n : Nat) :
    (lexer.nth? n).1 = ahead[n]? ∧ (lexer.nth? n).2.Yields (ahead.drop (n + 1)) finish := by
  induction n generalizing lexer ahead with
  | zero =>
    rw [Lexer.nth?, List.drop_one, ← List.head?_eq_getElem?]
    exact h.next?
  | succ n ih =>
    obtain ⟨first, later⟩ := h.next?
    rw [Lexer.nth?, first]
    cases ahead with
    | nil => exact ⟨rfl, later⟩
    | cons token ahead => exact ih later

theorem take (h : lexer.Yields ahead finish) (n : Nat) :
    (lexer.take n).1 = ahead.take n ∧ (lexer.take n).2.Yields (ahead.drop n) finish := by
  induction n generalizing lexer ahead with
  | zero => exact ⟨rfl, h⟩
  | succ n ih =>
    obtain ⟨first, later⟩ := h.next?
    rw [Lexer.take, first]
    cases ahead with
    | nil => exact ⟨rfl, later⟩
    | cons token ahead =>
      obtain ⟨taken, left⟩ := ih later
      exact ⟨congrArg (token :: ·) taken, left⟩

theorem collect (h : lexer.Yields ahead finish) :
    lexer.collect.1 = ahead ∧ lexer.collect.2.Yields [] finish := by
  induction ahead generalizing lexer with
  | nil =>
    obtain ⟨first, later⟩ := h.next?
    rw [Lexer.collect, dif_neg (by simp [first])]
    exact ⟨rfl, later⟩
  | cons token ahead ih =>
    obtain ⟨first, later⟩ := h.next?
    obtain ⟨taken, left⟩ := ih later
    rw [Lexer.collect, dif_pos (by simp [first])]
    refine ⟨?_, left⟩
    simp [first, taken]

/-! ### Any calls -/

/-- Each call takes its portion off the stream and replies with it. -/
theorem answer (h : lexer.Yields ahead finish) (call : Call) :
    (lexer.answer call).1 = call.reply finish (call.portion ahead) ∧
      (lexer.answer call).2.Yields (ahead.drop (call.portion ahead).length) finish := by
  have counted (n : Nat) : ahead.drop (ahead.take n).length = ahead.drop n := by
    simp [List.length_take, List.drop_eq_drop_iff]
  have all : ahead.drop ahead.length = [] := List.drop_length
  cases call with
  | nextToken =>
    obtain ⟨token, later⟩ := h.nextToken
    simp only [Lexer.answer, Call.portion, Call.reply, token, counted, List.drop_one]
    exact ⟨by cases ahead <;> rfl, later⟩
  | next =>
    obtain ⟨item, later⟩ := h.next?
    simp only [Lexer.answer, Call.portion, Call.reply, item, counted, List.drop_one]
    exact ⟨by cases ahead <;> rfl, later⟩
  | nth n =>
    obtain ⟨item, later⟩ := h.nth? n
    simp only [Lexer.answer, Call.portion, Call.reply, item, counted]
    exact ⟨by simp, later⟩
  | take n =>
    obtain ⟨items, later⟩ := h.take n
    simp only [Lexer.answer, Call.portion, Call.reply, items, counted, true_and]
    exact later
  | rest | count | last =>
    -- these three read to the end and differ in what they reply only
    obtain ⟨items, later⟩ := h.collect
    simp only [Lexer.answer, Lexer.count, Lexer.last?, Call.portion, Call.reply, items, all,
      true_and]
    exact later

/-- Any calls take their portions off the stream, one behind the other, and the lexer behind them
yields what is left. -/
theorem answers (h : lexer.Yields ahead finish) (calls : List Call) :
    (lexer.answers calls).1 =
        List.zipWith (fun call taken => call.reply finish taken) calls
          (Call.portions ahead calls) ∧
      ∃ left, (Call.portions ahead calls).flatten ++ left = ahead ∧
        (lexer.answers calls).2.Yields left finish := by
  induction calls generalizing lexer ahead with
  | nil => exact ⟨rfl, ahead, rfl, h⟩
  | cons call calls ih =>
    obtain ⟨reply, step⟩ := h.answer call
    obtain ⟨replies, left, whole, later⟩ := ih step
    rw [Lexer.answers, reply, replies]
    refine ⟨rfl, left, ?_, later⟩
    rw [Call.portions, List.flatten_cons, List.append_assoc, whole, call.portion_append]

/-- Where no token is left, none is left behind any calls. -/
theorem ended (h : lexer.Yields [] finish) (calls : List Call) :
    (lexer.answers calls).2.Yields [] finish := by
  obtain ⟨-, left, whole, later⟩ := h.answers calls
  rwa [(List.append_eq_nil_iff.1 whole).2] at later

end Yields

theorem yields_ofString (source : String) :
    (ofString source).Yields (ofString source).tokens (ofString source).finish :=
  ⟨rfl, rfl, fun set => absurd set Bool.false_ne_true⟩

/-- **All ways to ask for tokens see one stream.**  Let any calls be made to a lexer at the beginning
of a text.  Then the tokens that they take, in the order of the calls, and those that the lexer
behind them is still to give, are the tokens of the text; and each reply is made of what the call
took.  Nothing comes next, and the next token is the end of input, just if all tokens are taken, and
then so it is behind any further calls, with the end of input at the same place. -/
theorem answers_ofString (source : String) (calls : List Call) :
    let lexer := ofString source
    let later := (lexer.answers calls).2
    let taken := Call.portions lexer.tokens calls
    (lexer.answers calls).1 =
        List.zipWith (fun call taken => call.reply lexer.finish taken) calls taken ∧
      taken.flatten ++ later.tokenize = lexer.tokenize ∧
      (later.next?.1 = none ↔ taken.flatten = lexer.tokens) ∧
      (later.nextToken.1.kind = .endOfInput ↔ taken.flatten = lexer.tokens) ∧
      ∀ further, taken.flatten = lexer.tokens →
        (later.answers further).2.next?.1 = none ∧
          (later.answers further).2.nextToken.1 = .endOfInput lexer.finish := by
  intro lexer later taken
  obtain ⟨replies, left, whole, yields⟩ := (yields_ofString source).answers calls
  have whole : taken.flatten ++ left = lexer.tokens := whole
  have yields : later.Yields left lexer.finish := yields
  have spent : left = [] ↔ taken.flatten = lexer.tokens := by
    rw [← whole]
    exact List.self_eq_append_right.symm
  refine ⟨replies, ?_, ?_, ?_, fun further all => ?_⟩
  · rw [tokenize, yields.tokens, yields.finish, ← List.append_assoc, whole]
    rfl
  · rw [yields.next?.1, ← spent, List.head?_eq_none_iff]
  · rw [← spent]
    constructor
    · intro ended
      exact yields.tokens.symm.trans (tokens_of_end ended)
    · rintro rfl
      rw [yields.nextToken.1]
      rfl
  · obtain rfl := spent.2 all
    have ended := yields.ended further
    exact ⟨ended.next?.1, ended.nextToken.1⟩

/-- The end of input is seen by one call before the other interface reports it. -/
example : ((ofString "a+b").answers [.next, .nth 1, .nextToken, .next, .nextToken, .count]).1 =
    [.item (some ⟨.identifier, "a", ⟨1, 1⟩⟩), .item (some ⟨.identifier, "b", ⟨1, 3⟩⟩),
      .token (.endOfInput ⟨1, 4⟩), .item none, .token (.endOfInput ⟨1, 4⟩), .number 0] := by
  decide +kernel

end Lexer

end MonkeyLang
