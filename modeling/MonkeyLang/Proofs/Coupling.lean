import Mathlib.Data.List.Forall2
import MonkeyLang.Proofs.Alike
import MonkeyLang.Proofs.Reading

/-!
# Two runs side by side

A `Coupling` says which positions of one run correspond to which positions of another one (`Near`).
Two parsers agree if from positions that correspond they do the same: both read values that look the
same, or both find the same fault, and both stop at positions that correspond again.

The tokens ahead of two positions that correspond need not be the same all the way.  What is asked
for is that the current tokens look the same, and that one may look further and move on from a token
that is `Solid`: from any but a semicolon, at which a statement may be over, and the end of input.
This is enough, because no parser but the two loops over statements moves on from a token that it
has not recognized.  A coupling which may move on from everywhere `Roams`, and then the loops agree,
too.  They do so also if in the first run some more braces are open all the time (`Lifts`).

Two runs need not agree for ever.  They may get `Lost`, and then nothing is claimed of what follows;
and the first one may find a fault that is `Doomed`, which will make it lost when it is written
down.

One lemma for every parser derives that it agrees with another one from the agreement of the parts.
-/

namespace MonkeyLang

/-! ### Couplings -/

/-- The kinds of token at which no text and no statement can be over. -/
def Kind.Solid (kind : Kind) : Prop := kind ≠ .semicolon ∧ kind ≠ .endOfInput

instance (kind : Kind) : Decidable kind.Solid :=
  inferInstanceAs (Decidable (kind ≠ .semicolon ∧ kind ≠ .endOfInput))

/-- A token that binds is solid. -/
theorem Kind.solid_of_binds {bound : Precedence} {kind : Kind} (h : bound < .ofKind kind) :
    kind.Solid := by
  constructor <;> rintro rfl <;> exact absurd h (Nat.not_lt_zero _)

/-- A fault through a view. -/
def Fault.view (v : View) : Fault → Fault
  | .unexpected wanted found => .unexpected wanted (v.node found)
  | .noOperand found => .noOperand (v.node found)
  | .tooLarge literal => .tooLarge (v.node literal)
  | .tooDeep levels found => .tooDeep levels (v.node found)

theorem Fault.view_full (fault : Fault) : fault.view .full = fault := by
  cases fault <;> rfl

/-- Faults that look the same through the full view are the same. -/
theorem Fault.eq_of_view_full {f g : Fault} (h : f.view .full = g.view .full) : f = g := by
  rwa [f.view_full, g.view_full] at h

/-- The wording of a fault does not depend on the places of tokens. -/
theorem Fault.message_view {v : View} (node : ∀ token, (v.node token).spelling = token.spelling)
    (fault : Fault) : (fault.view v).message = fault.message := by
  cases fault with
  | unexpected wanted found =>
    exact (congrArg (fun token => message (.unexpected wanted token)) (node found) :)
  | noOperand found => exact (congrArg (fun token => message (.noOperand token)) (node found) :)
  | tooLarge literal => exact (congrArg (fun token => message (.tooLarge token)) (node literal) :)
  | tooDeep levels found => rfl

theorem similar_full (token : Token) : Similar .full .full token token := ⟨rfl, rfl, rfl, rfl, rfl⟩

/-- The position with one expression less open. -/
def State.close (s : State) : State := { s with nesting := s.nesting - 1 }

/-- A way to compare two runs. -/
structure Coupling where
  /-- How the trees and faults of the first run are seen. -/
  left : View
  /-- How the trees and faults of the second run are seen. -/
  right : View
  /-- The two positions correspond. -/
  Near : State → State → Prop
  /-- An expression may be begun at the position of the first run. -/
  Ready : State → Prop
  /-- Nothing is claimed of the two runs any more. -/
  Lost : State → State → Prop
  /-- The fault will make the first run lost. -/
  Doomed : Fault → Prop
  similar {s t : State} : Near s t → Similar left right s.current t.current
  similar_peek {s t : State} : Near s t → s.current.kind.Solid → Similar left right s.peek t.peek
  advance {s t : State} : Near s t → s.current.kind.Solid →
    Near s.advance t.advance ∧ Ready s.advance ∨ Lost s.advance t.advance
  began {s t : State} : Near s t → Near (s.note (.began s.current)) (t.note (.began t.current))
  completed {s t : State} : Near s t → Near (s.note .completed) (t.note .completed)
  ready {s s' : State} : Ready s → s.Reaches s' → Ready s'
  lost {s s' t t' : State} : Lost s t → s.Reaches s' → t.Reaches t' → Lost s' t'

namespace Coupling

variable {c : Coupling} {α β γ δ : Type} {s t : State} {good : α → β → State → Prop}

/-- Two runs have come to the same end, or to a point from which nothing is claimed. -/
inductive Meets (c : Coupling) (good : α → β → State → Prop) :
    Except Fault α × State → Except Fault β × State → Prop
  | ok {v : α} {w : β} {s t : State} (near : c.Near s t) (h : good v w s) :
      Meets c good (.ok v, s) (.ok w, t)
  | error {f g : Fault} {s t : State} (near : c.Near s t) (same : f.view c.left = g.view c.right) :
      Meets c good (.error f, s) (.error g, t)
  | lost {r : Except Fault α × State} {r' : Except Fault β × State} (h : c.Lost r.2 r'.2) :
      Meets c good r r'
  | doomed {f : Fault} {s : State} {r' : Except Fault β × State} (h : c.Doomed f) :
      Meets c good (.error f, s) r'

theorem Meets.mono {better : α → β → State → Prop} {r : Except Fault α × State}
    {r' : Except Fault β × State} (h : c.Meets good r r')
    (imp : ∀ v w s, good v w s → better v w s) : c.Meets better r r' := by
  cases h with
  | ok near h => exact .ok near (imp _ _ _ h)
  | error near same => exact .error near same
  | lost h => exact .lost h
  | doomed h => exact .doomed h

/-- What has come to the same end may be moved further, if positions that correspond are moved to
positions that correspond. -/
theorem Meets.moved {better : α → β → State → Prop} {r : Except Fault α × State}
    {r' : Except Fault β × State} (h : c.Meets good r r') {f g : State → State}
    (near : ∀ {s t}, c.Near s t → c.Near (f s) (g t))
    (lost : ∀ {s t}, c.Lost s t → c.Lost (f s) (g t))
    (imp : ∀ v w s, good v w s → better v w (f s)) :
    c.Meets better (r.1, f r.2) (r'.1, g r'.2) := by
  cases h with
  | ok corresponds h => exact .ok (near corresponds) (imp _ _ _ h)
  | error corresponds same => exact .error (near corresponds) same
  | lost h => exact .lost (lost h)
  | doomed h => exact .doomed h

/-- What is known of the end of a run may be used where it has come to a good end. -/
theorem Meets.with_run {p : Parser α} {r' : Except Fault β × State}
    (h : c.Meets good (p.run s) r') :
    c.Meets (fun v w m => good v w m ∧ p.run s = (.ok v, m)) (p.run s) r' := by
  generalize step : p.run s = r at h
  cases h with
  | ok near h => exact .ok near ⟨h, rfl⟩
  | error near same => exact .error near same
  | lost h => exact .lost h
  | doomed h => exact .doomed h

/-! ### Sequencing and moves -/

/-- The second part of a sequence goes on where the first has stopped. -/
theorem reaches_bind (first : Parser α) (second : α → Parser β) (s : State) :
    (first.run s).2.Reaches ((first >>= second).run s).2 := by
  cases step : first.run s with
  | mk outcome m =>
    cases outcome with
    | ok v =>
      rw [Parser.run_bind_ok second step]
      exact (second v).reaches m
    | error fault =>
      rw [Parser.run_bind_error second step]
      exact .refl m

theorem meets_bind {good' : γ → δ → State → Prop} {p : Parser α} {q : Parser β}
    {p' : α → Parser γ} {q' : β → Parser δ} (first : c.Meets good (p.run s) (q.run t))
    (next : ∀ v w s t, c.Near s t → good v w s → c.Meets good' ((p' v).run s) ((q' w).run t)) :
    c.Meets good' ((p >>= p').run s) ((q >>= q').run t) := by
  have moved := reaches_bind p p' s
  have moved' := reaches_bind q q' t
  generalize step : p.run s = r at first moved
  generalize step' : q.run t = r' at first moved'
  cases first with
  | ok near h =>
    rw [Parser.run_bind_ok p' step, Parser.run_bind_ok q' step']
    exact next _ _ _ _ near h
  | error near same =>
    rw [Parser.run_bind_error p' step, Parser.run_bind_error q' step']
    exact .error near same
  | lost h => exact .lost (c.lost h moved moved')
  | doomed h =>
    rw [Parser.run_bind_error p' step]
    exact .doomed h

theorem meets_pure (near : c.Near s t) {v : α} {w : β} (h : good v w s) :
    c.Meets good ((pure v : Parser α).run s) ((pure w : Parser β).run t) :=
  .ok near h

/-- A fault at the current tokens. -/
theorem meets_fail (near : c.Near s t) {f g : Fault} (same : f.view c.left = g.view c.right) :
    c.Meets good ((Parser.fail f : Parser α).run s) ((Parser.fail g : Parser β).run t) :=
  .error near same

theorem meets_advance {p : Unit → Parser α} {q : Unit → Parser β} (near : c.Near s t)
    (solid : s.current.kind.Solid)
    (next : c.Near s.advance t.advance → c.Ready s.advance →
      c.Meets good ((p ()).run s.advance) ((q ()).run t.advance)) :
    c.Meets good ((Parser.advance >>= p).run s) ((Parser.advance >>= q).run t) := by
  rcases c.advance near solid with ⟨near', ready⟩ | lost
  · exact next near' ready
  · exact .lost (c.lost lost (reaches_bind Parser.advance p s) (reaches_bind Parser.advance q t))

theorem meets_expect {p : Token → Parser α} {q : Token → Parser β} (near : c.Near s t)
    (solid : s.current.kind.Solid) (wanted : Kind)
    (next : Similar c.left c.right s.peek t.peek → s.advance.current.kind = wanted →
      c.Near s.advance t.advance → c.Ready s.advance →
      c.Meets good ((p s.peek).run s.advance) ((q t.peek).run t.advance)) :
    c.Meets good ((Parser.expect wanted >>= p).run s) ((Parser.expect wanted >>= q).run t) := by
  have similar := c.similar_peek near solid
  by_cases found : s.peek.kind = wanted
  · have step : (Parser.expect wanted).run s = (.ok s.peek, s.advance) := if_pos found
    have step' : (Parser.expect wanted).run t = (.ok t.peek, t.advance) :=
      if_pos (similar.kind.trans found)
    rcases c.advance near solid with ⟨near', ready⟩ | lost
    · rw [Parser.run_bind_ok p step, Parser.run_bind_ok q step']
      exact next similar found near' ready
    · have moved := reaches_bind (Parser.expect wanted) p s
      have moved' := reaches_bind (Parser.expect wanted) q t
      rw [step] at moved
      rw [step'] at moved'
      exact .lost (c.lost lost moved moved')
  · have step : (Parser.expect wanted).run s = (.error (.unexpected wanted s.peek), s) :=
      if_neg found
    have step' : (Parser.expect wanted).run t = (.error (.unexpected wanted t.peek), t) :=
      if_neg fun same => found (similar.kind.symm.trans same)
    rw [Parser.run_bind_error p step, Parser.run_bind_error q step']
    exact .error near (by rw [Fault.view, Fault.view, similar.node])

/-- After a look at the kind of the token ahead, both take the same branch. -/
theorem meets_peekIs {kind : Kind} {yes no : Parser α} {yes' no' : Parser β}
    (near : c.Near s t) (solid : s.current.kind.Solid)
    (found : s.peek.kind = kind → c.Meets good (yes.run s) (yes'.run t))
    (missed : s.peek.kind ≠ kind → c.Meets good (no.run s) (no'.run t)) :
    c.Meets good ((Parser.peekIs kind >>= fun is => if is = true then yes else no).run s)
      ((Parser.peekIs kind >>= fun is => if is = true then yes' else no').run t) := by
  have same : t.peek.kind = s.peek.kind := (c.similar_peek near solid).kind
  rw [Parser.run_bind_ok _ (Parser.run_peekIs kind s),
    Parser.run_bind_ok _ (Parser.run_peekIs kind t), same]
  by_cases h : s.peek.kind = kind
  · rw [if_pos (decide_eq_true h), if_pos (decide_eq_true h)]
    exact found h
  · rw [if_neg (by simpa using h), if_neg (by simpa using h)]
    exact missed h

theorem meets_skip {kind : Kind} {p : Unit → Parser α} {q : Unit → Parser β} (near : c.Near s t)
    (solid : s.current.kind.Solid)
    (next : ∀ s t, c.Near s t → c.Meets good ((p ()).run s) ((q ()).run t)) :
    c.Meets good ((Parser.skip kind >>= p).run s) ((Parser.skip kind >>= q).run t) := by
  have same : t.peek.kind = s.peek.kind := (c.similar_peek near solid).kind
  have moved := reaches_bind (Parser.skip kind) p s
  have moved' := reaches_bind (Parser.skip kind) q t
  rw [Parser.run_bind_ok p (Parser.run_skip kind s)]
  rw [Parser.run_bind_ok q (Parser.run_skip kind t)]
  rw [Parser.run_skip, Parser.run_bind_ok p (Parser.run_skip kind s)] at moved
  rw [Parser.run_skip, Parser.run_bind_ok q (Parser.run_skip kind t)] at moved'
  by_cases found : s.peek.kind = kind
  · rw [if_pos found] at moved ⊢
    rw [if_pos (same.trans found)] at moved' ⊢
    rcases c.advance near solid with ⟨near', -⟩ | lost
    · exact next _ _ near'
    · exact .lost (c.lost lost moved moved')
  · rw [if_neg found]
    rw [if_neg (fun h => found (same.symm.trans h))]
    exact next _ _ near

/-! ### Parsers that agree -/

/-- The values look the same, and the token at which the run has stopped is solid. -/
def Firm (same : α → β → Prop) (v : α) (w : β) (s : State) : Prop :=
  same v w ∧ s.current.kind.Solid

/-- The expressions look the same. -/
def SameExpression (c : Coupling) (e e' : Expression) : Prop := e.view c.left = e'.view c.right

/-- The names look the same. -/
def SameIdentifier (c : Coupling) (x x' : Identifier) : Prop := x.view c.left = x'.view c.right

/-- The blocks look the same. -/
def SameBlock (c : Coupling) (b b' : Block) : Prop := b.view c.left = b'.view c.right

/-- The statements look the same. -/
def SameStatement (c : Coupling) (w w' : Statement) (_ : State) : Prop :=
  w.view c.left = w'.view c.right

/-- Wherever an expression may begin, both parsers do the same. -/
def Agree (c : Coupling) (p q : Parser Expression) : Prop :=
  ∀ ⦃s t : State⦄, c.Near s t → c.Ready s →
    c.Meets (Firm c.SameExpression) (p.run s) (q.run t)

/-- Behind a token that has been recognized, both parsers do the same. -/
def AgreeBehind (c : Coupling) (same : α → β → Prop) (p : Parser α) (q : Parser β) : Prop :=
  ∀ ⦃s t : State⦄, c.Near s t → s.current.kind.Solid →
    c.Meets (Firm same) (p.run s) (q.run t)

/-- At an opening brace, both parsers do the same. -/
def AgreeOnBlocks (c : Coupling) (p q : Parser Block) : Prop :=
  ∀ ⦃s t : State⦄, c.Near s t → s.current.kind = .leftBrace →
    c.Meets (Firm c.SameBlock) (p.run s) (q.run t)

/-- If no run gets lost, then a run that ends well has stopped at a solid token. -/
theorem Meets.solid {same : α → β → Prop} {r : Except Fault α × State}
    {r' : Except Fault β × State} (h : c.Meets (Firm same) r r')
    (kept : ∀ {s t : State}, ¬c.Lost s t) {v : α} (ok : r.1 = .ok v) :
    r.2.current.kind.Solid := by
  cases h with
  | ok _ good => exact good.2
  | error _ _ => cases ok
  | lost h => exact (kept h).elim
  | doomed _ => cases ok

/-- A run whose end corresponds to itself meets itself. -/
theorem meets_self (views : c.left = c.right) {r : Except Fault Expression × State}
    (near : c.Near r.2 r.2) (solid : ∀ e, r.1 = .ok e → r.2.current.kind.Solid) :
    c.Meets (Firm c.SameExpression) r r := by
  obtain ⟨outcome, m⟩ := r
  cases outcome with
  | ok e => exact .ok near ⟨congrArg (Expression.view · e) views, solid e rfl⟩
  | error f => exact .error near (congrArg (Fault.view · f) views)

/-- A position corresponds to itself only, everything is seen as it is, and every run is followed to
its end. -/
structure Exact (c : Coupling) : Prop where
  left : c.left = .full
  right : c.right = .full
  near {s t : State} : c.Near s t → s = t
  lost {s t : State} : ¬c.Lost s t
  doomed {f : Fault} : ¬c.Doomed f

/-- Then runs that correspond are the same. -/
theorem Exact.eq_of_meets (x : c.Exact) {r r' : Except Fault Expression × State}
    (h : c.Meets (Firm c.SameExpression) r r') : r = r' := by
  cases h with
  | @ok e e' s t near good =>
    obtain rfl : e = e' := by
      have same : e.view c.left = e'.view c.right := good.1
      rwa [x.left, x.right, e.view_full, e'.view_full] at same
    obtain rfl := x.near near
    rfl
  | @error f g s t near same =>
    obtain rfl : f = g := by rwa [x.left, x.right, f.view_full, g.view_full] at same
    obtain rfl := x.near near
    rfl
  | lost h => exact (x.lost h).elim
  | doomed h => exact (x.doomed h).elim

/-! ### Lists in parentheses -/

section
variable {same : α → β → Prop} {p : Parser α} {q : Parser β}

theorem agree_items (h : c.AgreeBehind same p q) :
    c.AgreeBehind (List.Forall₂ same) (Parser.items p) (Parser.items q) := by
  intro s t near solid
  induction length : s.tokens.length using Nat.strongRecOn generalizing s t with
  | ind n ih =>
    rw [Parser.items_eq p, Parser.items_eq q]
    apply meets_bind (h near solid).with_run
    rintro v w m m' near ⟨⟨first, solid⟩, step⟩
    refine meets_peekIs near solid (fun comma => ?_) fun _ => ?_
    · refine meets_advance near solid fun near _ => ?_
      have solid : m.advance.current.kind.Solid := by
        rw [State.advance_current, comma]
        decide
      have shorter : m.advance.tokens.length < n := by
        have moved := Parser.length_le_of_run step
        have two := m.two_le_length_of_peek (by rw [comma]; decide)
        rw [State.length_advance]
        omega
      apply meets_bind (ih _ shorter near solid rfl)
      rintro vs ws s t near ⟨others, solid⟩
      exact meets_pure near ⟨.cons first others, solid⟩
    · exact meets_pure near ⟨.cons first .nil, solid⟩

theorem agree_listed (h : c.AgreeBehind same p q) :
    c.AgreeBehind (List.Forall₂ same) (Parser.listed p) (Parser.listed q) := by
  intro s t near solid
  refine meets_peekIs near solid (fun closed => ?_) fun _ => ?_
  · refine meets_advance near solid fun near _ => meets_pure near ⟨.nil, ?_⟩
    rw [State.advance_current, closed]
    decide
  · apply meets_bind (agree_items h near solid)
    rintro vs ws m m' near ⟨all, solid⟩
    refine meets_expect near solid .rightParen fun _ closes near _ => meets_pure near ⟨all, ?_⟩
    rw [closes]
    decide

end

/-! ### Statements -/

section
variable {expr expr' : Precedence → Parser Expression}

/-- An expression behind a token that has been recognized, and what follows it. -/
theorem meets_behind {p p' : Parser Expression} {q : Expression → Parser α}
    {q' : Expression → Parser β} (h : c.Agree p p') (near : c.Near s t)
    (solid : s.current.kind.Solid)
    (next : ∀ e e' s t, c.SameExpression e e' → c.Near s t → s.current.kind.Solid →
      c.Meets good ((q e).run s) ((q' e').run t)) :
    c.Meets good ((do Parser.advance; let e ← p; q e).run s)
      ((do Parser.advance; let e ← p'; q' e).run t) := by
  refine meets_advance near solid fun near ready => ?_
  apply meets_bind (h near ready)
  rintro e e' s t near ⟨same, solid⟩
  exact next e e' s t same near solid

/-- A statement may end with a semicolon. -/
theorem meets_ending {w w' : Statement} (near : c.Near s t) (solid : s.current.kind.Solid)
    (same : w.view c.left = w'.view c.right) :
    c.Meets c.SameStatement ((do Parser.skip .semicolon; pure w).run s)
      ((do Parser.skip .semicolon; pure w').run t) :=
  meets_skip near solid fun _ _ near => meets_pure near same

theorem meets_statementAt (h : c.Agree (expr .lowest) (expr' .lowest)) (near : c.Near s t)
    (ready : c.Ready s) :
    c.Meets c.SameStatement ((Parser.statementAt expr s.current).run s)
      ((Parser.statementAt expr' t.current).run t) := by
  have similar := c.similar near
  unfold Parser.statementAt
  rw [similar.kind]
  split
  · rename_i word
    refine meets_expect near (by rw [word]; decide) .identifier fun name named near _ => ?_
    refine meets_expect near (by rw [named]; decide) .assign fun _ assigned near _ => ?_
    refine meets_behind h near (by rw [assigned]; decide) fun e e' s t same near solid => ?_
    refine meets_ending near solid ?_
    simp only [Statement.view, Identifier.view, similar.node, name.node, name.literal,
      show e.view c.left = e'.view c.right from same]
  · rename_i word
    refine meets_behind h near (by rw [word]; decide) fun e e' s t same near solid => ?_
    refine meets_ending near solid ?_
    simp only [Statement.view, similar.node, show e.view c.left = e'.view c.right from same]
  · apply meets_bind (h near ready)
    rintro e e' s t near ⟨same, solid⟩
    refine meets_ending near solid ?_
    simp only [Statement.view, similar.lead, show e.view c.left = e'.view c.right from same]

theorem meets_statement (h : c.Agree (expr .lowest) (expr' .lowest)) (near : c.Near s t)
    (ready : c.Ready s) :
    c.Meets c.SameStatement ((Parser.statement expr).run s) ((Parser.statement expr').run t) := by
  have begun := c.began near
  have ready' := c.ready ready ((State.Reaches.refl s).note (.began s.current))
  show c.Meets c.SameStatement
    ((Parser.statementAt expr s.current >>= _).run (s.note (.began s.current)))
    ((Parser.statementAt expr' t.current >>= _).run (t.note (.began t.current)))
  apply meets_bind (meets_statementAt h begun ready')
  intro w w' s t near same
  exact .ok (c.completed near) same

/-! ### Operands -/

theorem agree_identifier {x x' : Token} (similar : Similar c.left c.right x x') :
    c.AgreeBehind c.SameExpression (pure (.identifier ⟨x, x.literal⟩))
      (pure (.identifier ⟨x', x'.literal⟩)) := by
  intro s t near solid
  refine meets_pure near ⟨?_, solid⟩
  simp only [SameExpression, Expression.view, Identifier.view, similar.node, similar.literal]

theorem agree_boolean {x x' : Token} (similar : Similar c.left c.right x x') (value : Bool) :
    c.AgreeBehind c.SameExpression (pure (.boolean x value)) (pure (.boolean x' value)) := by
  intro s t near solid
  refine meets_pure near ⟨?_, solid⟩
  simp only [SameExpression, Expression.view, similar.node]

theorem agree_integer {x x' : Token} (similar : Similar c.left c.right x x') :
    c.AgreeBehind c.SameExpression (Parser.integer x) (Parser.integer x') := by
  intro s t near solid
  unfold Parser.integer
  rw [similar.literal]
  dsimp only
  split
  · refine meets_pure near ⟨?_, solid⟩
    simp only [SameExpression, Expression.view, similar.node]
  · refine meets_fail near ?_
    simp only [Fault.view, similar.node]

theorem agree_unary (h : c.Agree (expr .unary) (expr' .unary)) {x x' : Token}
    (similar : Similar c.left c.right x x') :
    c.AgreeBehind c.SameExpression (Parser.unary expr x) (Parser.unary expr' x') := by
  intro s t near solid
  refine meets_behind h near solid fun e e' s t same near solid => meets_pure near ⟨?_, solid⟩
  simp only [SameExpression, Expression.view, similar.node, similar.literal,
    show e.view c.left = e'.view c.right from same]

theorem agree_group (h : c.Agree (expr .lowest) (expr' .lowest)) :
    c.AgreeBehind c.SameExpression (Parser.group expr) (Parser.group expr') := by
  intro s t near solid
  refine meets_behind h near solid fun e e' s t same near solid => ?_
  refine meets_expect near solid .rightParen fun _ closes near _ => meets_pure near ⟨same, ?_⟩
  rw [closes]
  decide

/-- A block that has to follow. -/
theorem meets_body {p : Block → Parser α} {q : Block → Parser β}
    (blocks : c.AgreeOnBlocks (Parser.block expr) (Parser.block expr')) (near : c.Near s t)
    (solid : s.current.kind.Solid)
    (next : ∀ b b' s t, c.SameBlock b b' → c.Near s t → s.current.kind.Solid →
      c.Meets good ((p b).run s) ((q b').run t)) :
    c.Meets good ((do let _ ← Parser.expect .leftBrace; let b ← Parser.block expr; p b).run s)
      ((do let _ ← Parser.expect .leftBrace; let b ← Parser.block expr'; q b).run t) := by
  refine meets_expect near solid .leftBrace fun _ opens near _ => ?_
  apply meets_bind (blocks near opens)
  rintro b b' s t near ⟨same, solid⟩
  exact next b b' s t same near solid

theorem agree_conditional (h : c.Agree (expr .lowest) (expr' .lowest))
    (blocks : c.AgreeOnBlocks (Parser.block expr) (Parser.block expr')) {x x' : Token}
    (similar : Similar c.left c.right x x') :
    c.AgreeBehind c.SameExpression (Parser.conditional expr x) (Parser.conditional expr' x') := by
  intro s t near solid
  refine meets_expect near solid .leftParen fun _ opens near _ => ?_
  refine meets_behind h near (by rw [opens]; decide) fun e e' s t condition near solid => ?_
  refine meets_expect near solid .rightParen fun _ closes near _ => ?_
  refine meets_body blocks near (by rw [closes]; decide) fun b b' s t first near solid => ?_
  have condition : e.view c.left = e'.view c.right := condition
  have first : b.view c.left = b'.view c.right := first
  refine meets_peekIs near solid (fun found => ?_) fun _ => ?_
  · refine meets_advance near solid fun near _ => ?_
    have solid : s.advance.current.kind.Solid := by
      rw [State.advance_current, found]
      decide
    refine meets_body blocks near solid fun a a' s t second near solid =>
      meets_pure near ⟨?_, solid⟩
    have second : a.view c.left = a'.view c.right := second
    simp only [SameExpression, Expression.view, alternativeView, similar.node, condition, first,
      second]
  · refine meets_pure near ⟨?_, solid⟩
    simp only [SameExpression, Expression.view, alternativeView, similar.node, condition, first]

theorem agree_parameter : c.AgreeBehind c.SameIdentifier Parser.parameter Parser.parameter := by
  intro s t near solid
  refine meets_expect near solid .identifier fun name named near _ => meets_pure near ⟨?_, ?_⟩
  · simp only [SameIdentifier, Identifier.view, name.node, name.literal]
  · rw [named]
    decide

theorem agree_function (blocks : c.AgreeOnBlocks (Parser.block expr) (Parser.block expr'))
    {x x' : Token} (similar : Similar c.left c.right x x') :
    c.AgreeBehind c.SameExpression (Parser.function expr x) (Parser.function expr' x') := by
  intro s t near solid
  refine meets_expect near solid .leftParen fun _ opens near _ => ?_
  apply meets_bind (agree_listed agree_parameter near (by rw [opens]; decide))
  rintro names names' s t near ⟨parameters, solid⟩
  refine meets_body blocks near solid fun b b' s t body near solid => meets_pure near ⟨?_, solid⟩
  have body : b.view c.left = b'.view c.right := body
  have parameters : names.map (Identifier.view c.left) = names'.map (Identifier.view c.right) := by
    rw [← List.forall₂_eq_eq_eq, List.forall₂_map_left_iff, List.forall₂_map_right_iff]
    exact parameters
  simp only [SameExpression, Expression.view, similar.node, parameters, body]

theorem agree_operand (h : c.Agree (expr .lowest) (expr' .lowest))
    (h' : c.Agree (expr .unary) (expr' .unary))
    (blocks : c.AgreeOnBlocks (Parser.block expr) (Parser.block expr')) :
    c.Agree (Parser.operand expr) (Parser.operand expr') := by
  intro s t near ready
  have similar := c.similar near
  rw [Parser.operand, Parser.operand, Parser.run_bind_ok _ (Parser.run_current s),
    Parser.run_bind_ok _ (Parser.run_current t), similar.kind]
  split
  case h_10 => exact meets_fail near (by simp only [Fault.view, similar.node])
  all_goals
    rename_i kind
    have solid : s.current.kind.Solid := by rw [kind]; decide
  · exact agree_identifier similar near solid
  · exact agree_integer similar near solid
  · exact agree_boolean similar true near solid
  · exact agree_boolean similar false near solid
  · exact agree_unary h' similar near solid
  · exact agree_unary h' similar near solid
  · exact agree_group h near solid
  · exact agree_conditional h blocks similar near solid
  · exact agree_function blocks similar near solid

/-! ### Operators -/

theorem agree_argument (h : c.Agree (expr .lowest) (expr' .lowest)) :
    c.AgreeBehind c.SameExpression (Parser.argument expr) (Parser.argument expr') := by
  intro s t near solid
  exact meets_advance near solid fun near ready => h near ready

theorem sameExpressions {arguments arguments' : List Expression}
    (h : List.Forall₂ c.SameExpression arguments arguments') :
    argumentViews c.left arguments = argumentViews c.right arguments' := by
  rw [argumentViews_eq, argumentViews_eq, ← List.forall₂_eq_eq_eq, List.forall₂_map_left_iff,
    List.forall₂_map_right_iff]
  exact h

theorem agree_operation (h : ∀ bound, c.Agree (expr bound) (expr' bound)) {e e' : Expression}
    (same : c.SameExpression e e') :
    c.AgreeBehind c.SameExpression (Parser.operation expr e) (Parser.operation expr' e') := by
  intro s t near solid
  have similar := c.similar near
  have same : e.view c.left = e'.view c.right := same
  rw [Parser.operation, Parser.operation, Parser.run_bind_ok _ (Parser.run_current s),
    Parser.run_bind_ok _ (Parser.run_current t), similar.kind]
  split
  · apply meets_bind (agree_listed (agree_argument (h .lowest)) near solid)
    rintro arguments arguments' s t near ⟨all, solid⟩
    refine meets_pure near ⟨?_, solid⟩
    simp only [SameExpression, Expression.view, similar.node, same, sameExpressions all]
  · refine meets_behind (h _) near solid fun r r' s t right near solid =>
      meets_pure near ⟨?_, solid⟩
    have right : r.view c.left = r'.view c.right := right
    simp only [SameExpression, Expression.view, similar.node, similar.literal, same, right]

/-- Two loops do the same if they look at the same and if their steps agree.  `Inv` is what is known
of the positions at which they decide whether to go on. -/
theorem meets_loop {more more' : State → Bool}
    {step step' loop loop' : Expression → Parser Expression} (Inv : State → Prop)
    (eq : ∀ e, loop e = (do
      if ← Parser.look more then
        Parser.advance
        let whole ← step e
        loop whole
      else pure e))
    (eq' : ∀ e, loop' e = (do
      if ← Parser.look more' then
        Parser.advance
        let whole ← step' e
        loop' whole
      else pure e))
    (agree : ∀ s t : State, c.Near s t → s.current.kind.Solid → Inv s → more' t = more s)
    (binds : ∀ s, more s = true → s.peek.kind.Solid)
    (taken : ∀ (e e' : Expression) (s t : State), c.SameExpression e e' → Inv s → more s = true →
      c.Near s.advance t.advance →
      c.Meets (fun v w m => Firm c.SameExpression v w m ∧ Inv m) ((step e).run s.advance)
        ((step' e').run t.advance))
    {e e' : Expression} (same : c.SameExpression e e') (near : c.Near s t)
    (solid : s.current.kind.Solid) (inv : Inv s) :
    c.Meets (fun v w m => Firm c.SameExpression v w m ∧ Inv m ∧ more m = false)
      ((loop e).run s) ((loop' e').run t) := by
  induction length : s.tokens.length using Nat.strongRecOn generalizing s t e e' with
  | ind n ih =>
    rw [eq, eq', Parser.run_bind_ok _ (Parser.run_look _ s),
      Parser.run_bind_ok _ (Parser.run_look _ t), agree s t near solid inv]
    cases found : more s with
    | true =>
      refine meets_advance near solid fun near _ => ?_
      apply meets_bind (taken e e' s t same inv found near).with_run
      rintro whole whole' m m' near ⟨⟨⟨grown, solid⟩, inv⟩, step⟩
      have shorter : m.tokens.length < n := by
        have moved := Parser.length_le_of_run step
        have two := s.two_le_length_of_peek (binds s found).2
        rw [State.length_advance] at moved
        omega
      exact ih _ shorter grown near solid inv rfl
    | false => exact meets_pure near ⟨⟨same, solid⟩, inv, found⟩

theorem agree_fold (h : ∀ bound, c.Agree (expr bound) (expr' bound)) (bound : Precedence)
    {e e' : Expression} (same : c.SameExpression e e') :
    c.AgreeBehind c.SameExpression (Parser.fold expr bound e) (Parser.fold expr' bound e') := by
  intro s t near solid
  have ended := meets_loop (fun _ => True) (Parser.fold_eq expr bound)
    (Parser.fold_eq expr' bound) (fun s t near solid _ => by rw [(c.similar_peek near solid).kind])
    (fun s tighter => Kind.solid_of_binds (of_decide_eq_true tighter))
    (fun e e' s t same _ tighter near => ?_) same near solid trivial
  · exact ended.mono fun v w m h => h.1
  · have binds : s.advance.current.kind.Solid := Kind.solid_of_binds (of_decide_eq_true tighter)
    exact (agree_operation h same near binds).mono fun v w m h => ⟨h, trivial⟩

theorem agree_operators (h : ∀ bound, c.Agree (expr bound) (expr' bound))
    (blocks : c.AgreeOnBlocks (Parser.block expr) (Parser.block expr')) (bound : Precedence) :
    c.Agree (Parser.operators expr bound) (Parser.operators expr' bound) := by
  intro s t near ready
  apply meets_bind (agree_operand (h .lowest) (h .unary) blocks near ready)
  rintro e e' s t near ⟨same, solid⟩
  exact agree_fold h bound same near solid

end

/-! ### Couplings that may move on from everywhere -/

/-- One may look further and move on from every token, also where a fault has been written down. -/
structure Roams (c : Coupling) : Prop where
  similar_peek {s t : State} : c.Near s t → Similar c.left c.right s.peek t.peek
  advance {s t : State} : c.Near s t → c.Near s.advance t.advance ∨ c.Lost s.advance t.advance
  braceDepth {s t : State} : c.Near s t → s.braceDepth = t.braceDepth
  failed {s t : State} {f g : Fault} : c.Near s t → f.view c.left = g.view c.right →
    c.Near (s.note (.failed f)) (t.note (.failed g))
  doomed {f : Fault} : c.Doomed f → ∀ s t : State, c.Lost (s.note (.failed f)) t

/-- One may look further and move on from every token as well, but the first run has some more braces
open, which stay open for ever. -/
structure Lifts (c : Coupling) (raised : Nat) : Prop where
  similar_peek {s t : State} : c.Near s t → Similar c.left c.right s.peek t.peek
  advance {s t : State} : c.Near s t → c.Near s.advance t.advance ∨ c.Lost s.advance t.advance
  braceDepth {s t : State} : c.Near s t → s.braceDepth = t.braceDepth + raised
  failed {s t : State} {f g : Fault} : c.Near s t → f.view c.left = g.view c.right →
    c.Near (s.note (.failed f)) (t.note (.failed g))
  doomed {f : Fault} : c.Doomed f → ∀ s t : State, c.Lost (s.note (.failed f)) t

/-- In a coupling that roams no braces are open in the first run only. -/
theorem Roams.lifts (r : c.Roams) : c.Lifts 0 where
  similar_peek := r.similar_peek
  advance := r.advance
  braceDepth := r.braceDepth
  failed := r.failed
  doomed := r.doomed

variable {raised : Nat}

/-- Both runs are at a boundary or both are not. -/
theorem Lifts.atBoundary (r : c.Lifts raised) (depth : Nat) (near : c.Near s t) :
    t.atBoundary depth = s.atBoundary (depth + raised) := by
  unfold State.atBoundary
  rw [(c.similar near).kind, (r.similar_peek near).kind, r.braceDepth near]
  simp only [Nat.add_le_add_iff_right]

/-- Recovery takes both runs to the same boundary. -/
theorem Lifts.synchronize (r : c.Lifts raised) (depth : Nat) (near : c.Near s t) :
    c.Near (s.synchronize (depth + raised)) (t.synchronize depth) ∨
      c.Lost (s.synchronize (depth + raised)) (t.synchronize depth) := by
  fun_induction State.synchronize (depth + raised) s generalizing t with
  | case1 s boundary =>
    rw [State.synchronize_of_boundary ((r.atBoundary depth near).trans boundary)]
    exact .inl near
  | case2 s notBoundary ih =>
    have notBoundary' : ¬t.atBoundary depth := by rwa [r.atBoundary depth near]
    rw [State.synchronize_of_not_boundary notBoundary']
    rcases r.advance near with near' | lost
    · exact ih near'
    · exact .inr (c.lost lost (s.advance.synchronize_reaches _)
        (t.advance.synchronize_reaches depth))

/-- Behind a broken statement both runs go on at positions that correspond. -/
theorem Lifts.resume (r : c.Lifts raised) (depth : Nat) (near : c.Near s t) :
    c.Near (s.synchronize (depth + raised)).advance (t.synchronize depth).advance ∨
      c.Lost (s.synchronize (depth + raised)).advance (t.synchronize depth).advance := by
  rcases r.synchronize depth near with near' | lost
  · exact r.advance near'
  · exact .inr (c.lost lost (State.Reaches.refl _).advance (State.Reaches.refl _).advance)

section
variable {expr expr' : Precedence → Parser Expression}

/-- The loop over the statements of a block goes on where a statement has been read. -/
theorem reaches_of_ok {depth : Nat} {s m : State} {w : Statement}
    (notClosed : s.current.kind ≠ .rightBrace) (notEnded : s.current.kind ≠ .endOfInput)
    (step : (Parser.statement expr).run s = (.ok w, m)) :
    m.Reaches (Parser.statementsFrom expr depth s).2 := by
  rw [Parser.statementsFrom_of_ok expr notClosed notEnded step]
  exact (State.Reaches.refl m).advance.trans (Parser.statementsFrom_reaches expr depth m.advance)

/-- The loop over the statements of a block goes on where a fault has been written down. -/
theorem reaches_of_error {depth : Nat} {s m : State} {f : Fault}
    (notClosed : s.current.kind ≠ .rightBrace) (notEnded : s.current.kind ≠ .endOfInput)
    (step : (Parser.statement expr).run s = (.error f, m)) :
    (m.note (.failed f)).Reaches (Parser.statementsFrom expr depth s).2 := by
  rw [Parser.statementsFrom_of_error expr notClosed notEnded step]
  split
  · exact .refl _
  · have resumed := (m.note (.failed f)).synchronize_reaches depth
    exact resumed.advance.trans (Parser.statementsFrom_reaches expr depth _)

theorem reaches_of_step (expr : Precedence → Parser Expression) (depth : Nat) {s : State}
    (notClosed : s.current.kind ≠ .rightBrace) (notEnded : s.current.kind ≠ .endOfInput) :
    ((Parser.statement expr).run s).2.Reaches (Parser.statementsFrom expr depth s).2 := by
  cases step : (Parser.statement expr).run s with
  | mk outcome m =>
    cases outcome with
    | ok w => exact reaches_of_ok notClosed notEnded step
    | error f =>
      exact ((State.Reaches.refl m).note _).trans (reaches_of_error notClosed notEnded step)

/-- Lists of statements look the same if their first statements do and the others do. -/
theorem Meets.cons {ends : State → Prop} {w w' : Statement}
    {r r' : Except Fault (List Statement) × State} (same : w.view c.left = w'.view c.right)
    (rest : c.Meets (fun ws ws' m => statementViews c.left ws = statementViews c.right ws' ∧ ends m)
      r r') :
    c.Meets (fun ws ws' m => statementViews c.left ws = statementViews c.right ws' ∧ ends m)
      (r.1.map (w :: ·), r.2) (r'.1.map (w' :: ·), r'.2) := by
  cases rest with
  | ok near h =>
    refine .ok near ⟨?_, h.2⟩
    rw [statementViews, statementViews, h.1, same]
  | error near seen => exact .error near seen
  | lost h => exact .lost h
  | doomed h => exact .doomed h

/-- Both loops over the statements of a block do the same. -/
theorem Lifts.meets_statements (r : c.Lifts raised) (h : c.Agree (expr .lowest) (expr' .lowest))
    (depth : Nat) (near : c.Near s t) (ready : c.Ready s) :
    c.Meets (fun ws ws' m => statementViews c.left ws = statementViews c.right ws' ∧
        m.current.kind = .rightBrace)
      (Parser.statementsFrom expr (depth + raised) s)
      (Parser.statementsFrom expr' depth t) := by
  induction length : s.tokens.length using Nat.strongRecOn generalizing s t with
  | ind n ih =>
    have kind : t.current.kind = s.current.kind := (c.similar near).kind
    by_cases closed : s.current.kind = .rightBrace
    · rw [Parser.statementsFrom_of_brace expr closed,
        Parser.statementsFrom_of_brace expr' (kind.trans closed)]
      exact .ok near ⟨rfl, closed⟩
    by_cases ended : s.current.kind = .endOfInput
    · rw [Parser.statementsFrom_of_end expr ended,
        Parser.statementsFrom_of_end expr' (kind.trans ended)]
      exact .error near (by simp only [Fault.view, (c.similar near).node])
    have closed' : t.current.kind ≠ .rightBrace := kind ▸ closed
    have ended' : t.current.kind ≠ .endOfInput := kind ▸ ended
    have positive := List.length_pos_iff.2 (s.tokens_ne_nil_of_current ended)
    have first := meets_statement h near ready
    have reached := (Parser.statement expr).reaches s
    have moved := reaches_of_step expr (depth + raised) closed ended
    have moved' := reaches_of_step expr' depth closed' ended'
    generalize step : (Parser.statement expr).run s = result at first reached moved
    generalize step' : (Parser.statement expr').run t = result' at first moved'
    cases first with
    | @ok w w' m m' near same =>
      rw [Parser.statementsFrom_of_ok expr closed ended step,
        Parser.statementsFrom_of_ok expr' closed' ended' step']
      rcases r.advance near with near | lost
      · have shorter : m.advance.tokens.length < n := by
          have moved := Parser.length_le_of_run step
          rw [State.length_advance]
          omega
        exact (ih _ shorter near (c.ready ready reached.advance) rfl).cons same
      · exact .lost (c.lost lost (Parser.statementsFrom_reaches expr _ m.advance)
          (Parser.statementsFrom_reaches expr' depth m'.advance))
    | @error f g m m' near seen =>
      rw [Parser.statementsFrom_of_error expr closed ended step,
        Parser.statementsFrom_of_error expr' closed' ended' step', (c.similar near).kind,
        r.braceDepth near]
      simp only [Nat.add_lt_add_iff_right]
      have near := r.failed near seen
      by_cases ends : m.current.kind = .rightBrace ∧ m'.braceDepth < depth
      · rw [if_pos ends, if_pos ends]
        exact .ok near ⟨rfl, ends.1⟩
      · rw [if_neg ends, if_neg ends]
        rcases r.resume depth near with near | lost
        · have resumed := (reached.note (.failed f)).trans
            ((m.note (.failed f)).synchronize_reaches (depth + raised))
          have shorter := m.length_resume (depth + raised) f
          have moved := Parser.length_le_of_run step
          exact ih _ (by omega) near (c.ready ready resumed.advance) rfl
        · exact .lost (c.lost lost (Parser.statementsFrom_reaches expr _ _)
            (Parser.statementsFrom_reaches expr' depth _))
    | lost h => exact .lost (c.lost h moved moved')
    | @doomed f m _ h =>
      exact .lost (c.lost (r.doomed h m t) (reaches_of_error closed ended step)
        (Parser.statementsFrom_reaches expr' depth t))

theorem Lifts.agree_block (r : c.Lifts raised) (h : c.Agree (expr .lowest) (expr' .lowest)) :
    c.AgreeOnBlocks (Parser.block expr) (Parser.block expr') := by
  intro s t near opens
  have similar := c.similar near
  have solid : s.current.kind.Solid := by rw [opens]; decide
  rw [Parser.block, Parser.block, Parser.run_bind_ok _ (Parser.run_current s),
    Parser.run_bind_ok _ (Parser.run_current t), Parser.run_bind_ok _ (Parser.run_look _ s),
    Parser.run_bind_ok _ (Parser.run_look _ t), r.braceDepth near]
  refine meets_advance near solid fun near ready => ?_
  apply meets_bind (r.meets_statements h t.braceDepth near ready)
  rintro ws ws' m m' near ⟨same, closes⟩
  refine meets_pure near ⟨?_, by rw [closes]; decide⟩
  have hidden : c.right.closed t.current = c.left.closed s.current := similar.closed
  simp only [SameBlock, Block.view, similar.node, hidden, same]

theorem Roams.agree_block (r : c.Roams) (h : c.Agree (expr .lowest) (expr' .lowest)) :
    c.AgreeOnBlocks (Parser.block expr) (Parser.block expr') :=
  r.lifts.agree_block h

end

/-! ### Tying the knot -/

/-- As many expressions are open at both positions, and their number plays no other part. -/
structure Counts (c : Coupling) : Prop where
  nesting {s t : State} : c.Near s t → s.nesting = t.nesting
  near {s t : State} : c.Near s t → ∀ n, c.Near { s with nesting := n } { t with nesting := n }
  ready {s : State} : c.Ready s → ∀ n, c.Ready { s with nesting := n }
  lost {s t : State} : c.Lost s t → ∀ m n, c.Lost { s with nesting := m } { t with nesting := n }

theorem Counts.meets_nested (k : c.Counts) {same : α → β → Prop} {p : Parser α} {q : Parser β}
    (h : c.Meets (Firm same) (p.run { s with nesting := s.nesting + 1 })
      (q.run { t with nesting := t.nesting + 1 })) :
    c.Meets (Firm same) ((Parser.nested p).run s) ((Parser.nested q).run t) := by
  refine h.moved (f := State.close) (g := State.close) (fun {s t} near => ?_)
    (fun lost => k.lost lost _ _) fun _ _ _ good => good
  rw [State.close, State.close, ← k.nesting near]
  exact k.near near (s.nesting - 1)

/-- The parsers of expressions agree if the parsers of blocks do. -/
theorem Counts.agree_expressionWithin (k : c.Counts)
    (blocks : ∀ levels, (∀ bound, c.Agree (Parser.expressionWithin levels bound)
        (Parser.expressionWithin levels bound)) →
      c.AgreeOnBlocks (Parser.block (Parser.expressionWithin levels))
        (Parser.block (Parser.expressionWithin levels)))
    (levels : Nat) (bound : Precedence) :
    c.Agree (Parser.expressionWithin levels bound) (Parser.expressionWithin levels bound) := by
  induction levels generalizing bound with
  | zero =>
    intro s t near _
    refine .error near ?_
    simp only [Fault.view, k.nesting near, (c.similar near).node]
  | succ levels ih =>
    intro s t near ready
    have near' := k.near near (s.nesting + 1)
    apply k.meets_nested
    rw [← k.nesting near]
    exact agree_operators ih (blocks levels ih) bound near' (k.ready ready _)

/-- With the same limit, the parsers of expressions agree. -/
theorem Counts.agree_expression (k : c.Counts)
    (blocks : ∀ levels, (∀ bound, c.Agree (Parser.expressionWithin levels bound)
        (Parser.expressionWithin levels bound)) →
      c.AgreeOnBlocks (Parser.block (Parser.expressionWithin levels))
        (Parser.block (Parser.expressionWithin levels)))
    (limit : Nat) (bound : Precedence) :
    c.Agree (Parser.expression limit bound) (Parser.expression limit bound) := by
  intro s t near ready
  show c.Meets _ ((Parser.expressionWithin (limit - s.nesting) bound).run s)
    ((Parser.expressionWithin (limit - t.nesting) bound).run t)
  rw [k.nesting near]
  exact k.agree_expressionWithin blocks _ bound near ready

end Coupling

/-! ### Whole programs -/

namespace State

/-- The statements up to the end of input and the position there, with any parser of
expressions. -/
def statementsBy (expr : Precedence → Parser Expression) (state : State) :
    List Statement × State :=
  if _ : state.current.kind = .endOfInput then ([], state)
  else
    let step := (Parser.statement expr).run state
    match step.1 with
    | .ok first =>
      let later := statementsBy expr step.2.advance
      (first :: later.1, later.2)
    | .error fault => statementsBy expr ((step.2.note (.failed fault)).synchronize 0).advance
termination_by state.tokens.length
decreasing_by
  all_goals
    have shorter := (Parser.statement expr).length_le state
    have positive := List.length_pos_iff.2 (state.tokens_ne_nil_of_current (by assumption))
  · have advanced := ((Parser.statement expr).run state).2.length_advance
    omega
  · have resumed := ((Parser.statement expr).run state).2.length_resume 0 fault
    omega

variable {expr : Precedence → Parser Expression} {state later : State}

theorem statementsBy_of_end (h : state.current.kind = .endOfInput) :
    state.statementsBy expr = ([], state) := by
  rw [statementsBy, dif_pos h]

theorem statementsBy_of_ok {first : Statement} (notEnded : state.current.kind ≠ .endOfInput)
    (step : (Parser.statement expr).run state = (.ok first, later)) :
    state.statementsBy expr =
      (first :: (later.advance.statementsBy expr).1, (later.advance.statementsBy expr).2) := by
  rw [statementsBy, dif_neg notEnded, step]

theorem statementsBy_of_error {fault : Fault} (notEnded : state.current.kind ≠ .endOfInput)
    (step : (Parser.statement expr).run state = (.error fault, later)) :
    state.statementsBy expr =
      ((later.note (.failed fault)).synchronize 0).advance.statementsBy expr := by
  rw [statementsBy, dif_neg notEnded, step]

theorem statementsBy_reaches (expr : Precedence → Parser Expression) (state : State) :
    state.Reaches (state.statementsBy expr).2 := by
  fun_induction statementsBy expr state with
  | case1 state => exact .refl state
  | case2 state _ step first _ later ih =>
    exact ((Parser.statement expr).reaches state).advance.trans ih
  | case3 state _ step fault _ ih =>
    have failed : state.Reaches (step.2.note (.failed fault)) :=
      ((Parser.statement expr).reaches state).note _
    exact (failed.trans (State.synchronize_reaches _ 0)).advance.trans ih

/-- The loop over the statements of a program goes on where a fault has been written down. -/
theorem reaches_statementsBy_of_error {fault : Fault}
    (notEnded : state.current.kind ≠ .endOfInput)
    (step : (Parser.statement expr).run state = (.error fault, later)) :
    (later.note (.failed fault)).Reaches (state.statementsBy expr).2 := by
  rw [statementsBy_of_error notEnded step]
  have resumed := (later.note (.failed fault)).synchronize_reaches 0
  exact resumed.advance.trans (statementsBy_reaches expr _)

theorem reaches_statementsBy (expr : Precedence → Parser Expression)
    (notEnded : state.current.kind ≠ .endOfInput) :
    ((Parser.statement expr).run state).2.Reaches (state.statementsBy expr).2 := by
  cases step : (Parser.statement expr).run state with
  | mk outcome later =>
    cases outcome with
    | ok first =>
      rw [statementsBy_of_ok notEnded step]
      exact (Reaches.refl later).advance.trans (statementsBy_reaches expr _)
    | error fault =>
      exact ((Reaches.refl later).note _).trans (reaches_statementsBy_of_error notEnded step)

/-- The statements of a program are read by the parser of expressions with the limit. -/
theorem statements_eq_statementsBy (limit : Nat) (state : State) :
    state.statements limit = state.statementsBy (Parser.expression limit) := by
  fun_induction statements limit state with
  | case1 state ended => rw [statementsBy_of_end ended]
  | case2 state notEnded step first ok later ih =>
    rw [statementsBy_of_ok notEnded (Prod.ext ok rfl), ← ih]
  | case3 state notEnded step fault error broken ih =>
    rw [statementsBy_of_error notEnded (Prod.ext error rfl), ← ih]

end State

namespace Coupling

variable {c : Coupling} {s t : State}

/-- Both runs over a whole program come to their ends with programs that look the same. -/
theorem Roams.statementsBy (r : c.Roams) (expr expr' : Precedence → Parser Expression)
    (h : c.Agree (expr .lowest) (expr' .lowest)) (near : c.Near s t) (ready : c.Ready s) :
    c.Near (s.statementsBy expr).2 (t.statementsBy expr').2 ∧
        statementViews c.left (s.statementsBy expr).1 =
          statementViews c.right (t.statementsBy expr').1 ∨
      c.Lost (s.statementsBy expr).2 (t.statementsBy expr').2 := by
  induction length : s.tokens.length using Nat.strongRecOn generalizing s t with
  | ind n ih =>
    have kind : t.current.kind = s.current.kind := (c.similar near).kind
    by_cases ended : s.current.kind = .endOfInput
    · rw [State.statementsBy_of_end ended, State.statementsBy_of_end (kind.trans ended)]
      exact .inl ⟨near, rfl⟩
    have ended' : t.current.kind ≠ .endOfInput := kind ▸ ended
    have positive := List.length_pos_iff.2 (s.tokens_ne_nil_of_current ended)
    have first := meets_statement h near ready
    have reached := (Parser.statement expr).reaches s
    have moved := State.reaches_statementsBy expr ended
    have moved' := State.reaches_statementsBy expr' ended'
    generalize step : (Parser.statement expr).run s = result at first reached moved
    generalize step' : (Parser.statement expr').run t = result' at first moved'
    cases first with
    | @ok w w' m m' near same =>
      rw [State.statementsBy_of_ok ended step, State.statementsBy_of_ok ended' step']
      rcases r.advance near with near | lost
      · have shorter : m.advance.tokens.length < n := by
          have moved := Parser.length_le_of_run step
          rw [State.length_advance]
          omega
        rcases ih _ shorter near (c.ready ready reached.advance) rfl with ⟨near, rest⟩ | lost
        · have same : w.view c.left = w'.view c.right := same
          refine .inl ⟨near, ?_⟩
          rw [statementViews, statementViews, rest, same]
        · exact .inr lost
      · exact .inr (c.lost lost (State.statementsBy_reaches expr m.advance)
          (State.statementsBy_reaches expr' m'.advance))
    | @error f g m m' near seen =>
      rw [State.statementsBy_of_error ended step, State.statementsBy_of_error ended' step']
      have near := r.failed near seen
      rcases r.lifts.resume 0 near with near | lost
      · have resumed := (reached.note (.failed f)).trans
          ((m.note (.failed f)).synchronize_reaches 0)
        have shorter := m.length_resume 0 f
        have moved := Parser.length_le_of_run step
        exact ih _ (by omega) near (c.ready ready resumed.advance) rfl
      · exact .inr (c.lost lost (State.statementsBy_reaches expr _)
          (State.statementsBy_reaches expr' _))
    | lost h => exact .inr (c.lost h moved moved')
    | @doomed f m _ h =>
      exact .inr (c.lost (r.doomed h m t) (State.reaches_statementsBy_of_error ended step)
        (State.statementsBy_reaches expr' t))

end Coupling

end MonkeyLang
