import MonkeyLang.Proofs.Braces
import MonkeyLang.Proofs.Reading

/-!
# A block contains its faults

Between an opening brace and the brace that matches it anything may stand: as long as the braces
in between are balanced, the block parser starts at the one and ends at the other, and every fault
that it finds on the way is found at a token behind the first and not behind the second
(`Parser.block_contained`).

A `Region` is what lies ahead inside of a block.  Three things work together to keep the parser in
it, and the proof is about the depth of braces that all of them use:

* no parser moves on from the closing brace of the region, since it only ever moves on from a token
  that it has recognized, or to the token that it expects;
* a block inside of the region gives the depth back that it was entered with;
* recovery stops at the depth of the region, before its closing brace at the latest.

`Region.Keeps` says of a run that it stays in the region, and one lemma for every parser derives it
from the parts of the parser.
-/

namespace MonkeyLang

/-! ### Regions -/

/-- What lies ahead inside of a block. -/
structure Region where
  /-- The tokens at which a fault may be found. -/
  allowed : Token → Prop
  /-- How many braces are open inside of the block. -/
  floor : Nat
  /-- The closing brace of the block. -/
  closing : Token
  /-- What stands behind the block. -/
  rest : List Token

/-- The kinds of token that do not change the depth. -/
def Kind.Plain (kind : Kind) : Prop := kind ≠ .leftBrace ∧ kind ≠ .rightBrace

theorem braceStep_plain {kind : Kind} (h : kind.Plain) (depth : Nat) :
    braceStep depth kind = depth := by
  unfold braceStep
  split
  · exact absurd rfl h.1
  · exact absurd rfl h.2
  · rfl

/-- Only a closing brace makes the depth fall, by one. -/
theorem braceStep_lt {kind : Kind} {depth floor : Nat} (above : floor ≤ depth)
    (below : braceStep depth kind < floor) : kind = .rightBrace ∧ depth = floor := by
  unfold braceStep at below
  split at below
  · omega
  · exact ⟨rfl, by omega⟩
  · omega

namespace Region

variable {region : Region} {depth : Nat} {tokens : List Token} {s t : State}

/-- If so many braces are open before the tokens, then their way to the closing brace of the region
leads through the region. -/
inductive Inside (region : Region) : Nat → List Token → Prop
  | close (positive : 0 < region.floor) (kind : region.closing.kind = .rightBrace)
      (permitted : region.allowed region.closing) :
      Inside region region.floor (region.closing :: region.rest)
  | step {depth : Nat} {token : Token} {tokens : List Token} (permitted : region.allowed token)
      (kind : token.kind ≠ .endOfInput) (above : region.floor ≤ depth)
      (inside : Inside region (braceStep depth token.kind) tokens) :
      Inside region depth (token :: tokens)

theorem Inside.floor_le (h : region.Inside depth tokens) : region.floor ≤ depth := by
  cases h with
  | close => exact Nat.le_refl _
  | step _ _ above _ => exact above

/-- What is known of the closing brace. -/
theorem Inside.closing (h : region.Inside depth tokens) :
    0 < region.floor ∧ region.closing.kind = .rightBrace ∧ region.allowed region.closing := by
  induction h with
  | close positive kind permitted => exact ⟨positive, kind, permitted⟩
  | step _ _ _ _ ih => exact ih

/-- Balanced tokens lead to the closing brace through the region. -/
theorem inside_of_depthAfter? (positive : 0 < region.floor)
    (kind : region.closing.kind = .rightBrace) (permitted : region.allowed region.closing)
    {content : List Token} {opened : Nat} (balanced : depthAfter? opened content = some 0)
    (all : ∀ token ∈ content, region.allowed token ∧ token.kind ≠ .endOfInput) :
    region.Inside (region.floor + opened) (content ++ region.closing :: region.rest) := by
  induction content generalizing opened with
  | nil =>
    obtain rfl : opened = 0 := by simpa [depthAfter?] using balanced
    exact .close positive kind permitted
  | cons token content ih =>
    obtain ⟨⟨allowed, notEnd⟩, all⟩ := List.forall_mem_cons.1 all
    refine .step allowed notEnd (Nat.le_add_right _ _) ?_
    by_cases opens : token.kind = .leftBrace
    · rw [depthAfter?_leftBrace opens] at balanced
      rw [opens]
      exact ih balanced all
    by_cases closes : token.kind = .rightBrace
    · cases opened with
      | zero => simp [depthAfter?_rightBrace_zero closes] at balanced
      | succ opened =>
        rw [depthAfter?_rightBrace closes] at balanced
        rw [closes]
        exact ih balanced all
    · rw [depthAfter?_plain opens closes] at balanced
      rw [braceStep_plain ⟨opens, closes⟩]
      exact ih balanced all

/-- The region of a block inside of the region. -/
def inner (region : Region) (floor : Nat) (closing : Token) (rest : List Token) : Region :=
  { region with floor, closing, rest }

/-- A brace that is opened in the region is closed in the region: the way through the region leads
through the region of the inner block first. -/
theorem Inside.split (h : region.Inside depth tokens) {base : Nat} (above : region.floor ≤ base)
    (below : base < depth) :
    ∃ closing rest, (region.inner (base + 1) closing rest).Inside depth tokens ∧
      region.Inside base rest := by
  induction h with
  | close => exact absurd above (Nat.not_le.2 below)
  | @step depth token tokens permitted kind _ inside ih =>
    by_cases further : base < braceStep depth token.kind
    · obtain ⟨closing, rest, inner, outer⟩ := ih further
      exact ⟨closing, rest, .step permitted kind below inner, outer⟩
    · -- the depth falls to that of the base, so this is the brace
      have closes : token.kind = .rightBrace := by
        refine Decidable.byContradiction fun notCloses => further ?_
        by_cases opens : token.kind = .leftBrace
        · rw [opens]
          exact Nat.lt_succ_of_lt below
        · rwa [braceStep_plain ⟨opens, notCloses⟩]
      have fallen : braceStep depth token.kind = depth - 1 := by rw [closes]; rfl
      obtain rfl : depth = base + 1 := by omega
      rw [fallen] at inside
      exact ⟨token, tokens, .close (Nat.succ_pos _) closes permitted, inside⟩

/-! ### Positions in a region -/

/-- A position whose current token is in the region. -/
def Within (region : Region) (s : State) : Prop :=
  ∃ depth, region.Inside depth s.tokens ∧ s.braceDepth = braceStep depth s.current.kind

namespace Within

/-- The current token is one at which a fault may be found, and not the end of input. -/
theorem current (h : region.Within s) :
    region.allowed s.current ∧ s.current.kind ≠ .endOfInput := by
  obtain ⟨depth, inside, -⟩ := h
  generalize same : s.tokens = tokens at inside
  cases inside with
  | close _ kind permitted =>
    rw [State.current, same]
    exact ⟨permitted, fun ended => absurd (kind.symm.trans ended) (by decide)⟩
  | step permitted kind =>
    rw [State.current, same]
    exact ⟨permitted, kind⟩

/-- At a token that is no brace the depth is not below that of the region. -/
theorem floor_le (h : region.Within s) (plain : s.current.kind.Plain) :
    region.floor ≤ s.braceDepth := by
  obtain ⟨depth, inside, counted⟩ := h
  rw [counted, braceStep_plain plain]
  exact inside.floor_le

/-- Below the depth of the region there is only its closing brace. -/
theorem at_closing (h : region.Within s) (below : s.braceDepth < region.floor) :
    s.tokens = region.closing :: region.rest ∧ s.braceDepth + 1 = region.floor := by
  obtain ⟨depth, inside, counted⟩ := h
  generalize same : s.tokens = tokens at inside
  rw [State.current, same] at counted
  cases inside with
  | close positive kind _ =>
    have fallen : s.braceDepth = region.floor - 1 :=
      counted.trans (by rw [List.head?_cons, Option.getD_some, kind]; rfl)
    exact ⟨rfl, by omega⟩
  | step _ _ _ inside => exact absurd inside.floor_le (Nat.not_le.2 (counted ▸ below))

/-- Anywhere else one may move on. -/
theorem inside_advance (h : region.Within s) (above : region.floor ≤ s.braceDepth) :
    region.Inside s.braceDepth s.advance.tokens := by
  obtain ⟨depth, inside, counted⟩ := h
  have positive := inside.closing.1
  rw [State.advance_tokens]
  generalize same : s.tokens = tokens at inside
  rw [State.current, same] at counted
  cases inside with
  | close _ kind _ =>
    have fallen : s.braceDepth = region.floor - 1 :=
      counted.trans (by rw [List.head?_cons, Option.getD_some, kind]; rfl)
    omega
  | step _ _ _ inside => exact counted ▸ inside

theorem advance (h : region.Within s) (above : region.floor ≤ s.braceDepth) :
    region.Within s.advance :=
  ⟨s.braceDepth, h.inside_advance above, rfl⟩

theorem peek (h : region.Within s) (above : region.floor ≤ s.braceDepth) :
    region.allowed s.peek ∧ s.peek.kind ≠ .endOfInput :=
  (h.advance above).current

end Within

/-! ### Runs that stay in a region -/

/-- Faults found in the region. -/
def Tolerates (region : Region) (fault : Fault) : Prop := region.allowed fault.token

/-- A run that began at the given position has stayed in the region, where it found all its faults,
and if it ended well, then well enough. -/
def Keeps {α : Type} (region : Region) (s : State) (good : α → State → Prop) :
    Except Fault α × State → Prop
  | (.ok v, t) => region.Within t ∧ s.Adds region.Tolerates t ∧ good v t
  | (.error fault, t) => region.Within t ∧ s.Adds region.Tolerates t ∧ region.Tolerates fault

section
variable {α β : Type} {good : α → State → Prop} {good' : β → State → Prop}

theorem Keeps.trans {result : Except Fault α × State} (before : s.Adds region.Tolerates t)
    (h : region.Keeps t good result) : region.Keeps s good result := by
  obtain ⟨outcome, u⟩ := result
  cases outcome with
  | ok v => exact ⟨h.1, before.trans h.2.1, h.2.2⟩
  | error fault => exact ⟨h.1, before.trans h.2.1, h.2.2⟩

theorem Keeps.mono {better : α → State → Prop} {result : Except Fault α × State}
    (h : region.Keeps s good result) (imp : ∀ v t, region.Within t → good v t → better v t) :
    region.Keeps s better result := by
  obtain ⟨outcome, u⟩ := result
  cases outcome with
  | ok v => exact ⟨h.1, h.2.1, imp v u h.1 h.2.2⟩
  | error fault => exact h

/-- In a sequence the second part goes on where the first has stopped. -/
theorem keeps_bind {first : Parser α} {second : α → Parser β}
    (h : region.Keeps s good (first.run s))
    (next : ∀ v t, region.Within t → good v t → region.Keeps t good' ((second v).run t)) :
    region.Keeps s good' ((first >>= second).run s) := by
  rw [Parser.run_bind]
  generalize first.run s = result at h
  obtain ⟨outcome, t⟩ := result
  cases outcome with
  | ok v => exact (next v t h.1 h.2.2).trans h.2.1
  | error fault => exact h

theorem keeps_pure (within : region.Within s) {v : α} (h : good v s) :
    region.Keeps s good ((pure v : Parser α).run s) :=
  ⟨within, .refl s, h⟩

theorem keeps_look (within : region.Within s) {view : State → α} (h : good (view s) s) :
    region.Keeps s good ((Parser.look view).run s) :=
  ⟨within, .refl s, h⟩

theorem keeps_current (within : region.Within s) :
    region.Keeps s (fun token t => s.current = token ∧ s = t) (Parser.current.run s) :=
  keeps_look within ⟨rfl, rfl⟩

theorem keeps_peekIs (within : region.Within s) {kind : Kind} :
    region.Keeps s (fun found t => decide (s.peek.kind = kind) = found ∧ s = t)
      ((Parser.peekIs kind).run s) :=
  keeps_look within ⟨rfl, rfl⟩

/-- A fault is found at the current token. -/
theorem keeps_fail (within : region.Within s) {fault : Fault} (h : fault.token = s.current) :
    region.Keeps s good ((Parser.fail fault : Parser α).run s) :=
  ⟨within, .refl s, show region.allowed fault.token from h ▸ within.current.1⟩

theorem keeps_advance (within : region.Within s) (above : region.floor ≤ s.braceDepth) :
    region.Keeps s (fun _ t => t = s.advance) (Parser.advance.run s) :=
  ⟨within.advance above, .of_eq rfl, rfl⟩

/-- What is expected is moved on to, and what is found instead is in the region. -/
theorem keeps_expect (within : region.Within s) (above : region.floor ≤ s.braceDepth)
    (wanted : Kind) :
    region.Keeps s
      (fun _ t => t.current.kind = wanted ∧ t.braceDepth = braceStep s.braceDepth wanted)
      ((Parser.expect wanted).run s) := by
  rw [Parser.run_expect]
  split
  · rename_i found
    refine ⟨within.advance above, .of_eq rfl, found, ?_⟩
    rw [State.advance_braceDepth, found]
  · exact ⟨within, .refl s, (within.peek above).1⟩

theorem keeps_skip (within : region.Within s) (above : region.floor ≤ s.braceDepth) {kind : Kind}
    (plain : kind.Plain) :
    region.Keeps s (fun _ t => t.braceDepth = s.braceDepth) ((Parser.skip kind).run s) := by
  rw [Parser.run_skip]
  split
  · rename_i found
    refine ⟨within.advance above, .of_eq rfl, ?_⟩
    show s.advance.braceDepth = s.braceDepth
    rw [State.advance_braceDepth, found, braceStep_plain plain]
  · exact ⟨within, .refl s, rfl⟩

/-- The number of open expressions plays no part. -/
theorem keeps_nested {parser : Parser α} (h : ∀ n, region.Keeps { s with nesting := n } good
      (parser.run { s with nesting := n }))
    (blind : ∀ v t n, good v t → good v { t with nesting := n }) :
    region.Keeps s good ((Parser.nested parser).run s) := by
  have kept := h (s.nesting + 1)
  rw [Parser.run_nested]
  generalize parser.run { s with nesting := s.nesting + 1 } = result at kept
  obtain ⟨outcome, t⟩ := result
  cases outcome with
  | ok v => exact ⟨kept.1, kept.2.1, blind v t _ kept.2.2⟩
  | error fault => exact ⟨kept.1, kept.2.1, kept.2.2⟩

end

end Region

namespace Parser

variable {region : Region} {s t : State}

open Region

/-! ### Lists in parentheses -/

section
variable {α : Type} {item : Parser α}

/-- Every item is read in the region, from one depth to the same. -/
def LevelItem (region : Region) (item : Parser α) : Prop :=
  ∀ ⦃s⦄, region.Within s → region.floor ≤ s.braceDepth →
    region.Keeps s (fun _ t => t.braceDepth = s.braceDepth) (item.run s)

theorem keeps_items (h : LevelItem region item) : LevelItem region (items item) := by
  intro s within above
  show region.Keeps s _ (itemsFrom item s)
  induction length : s.tokens.length using Nat.strongRecOn generalizing s with
  | ind n ih =>
    have kept := h within above
    cases step : item.run s with
    | mk outcome m =>
      rw [step] at kept
      cases outcome with
      | error fault =>
        rw [itemsFrom_of_error step]
        exact kept
      | ok v =>
        obtain ⟨within', adds, level⟩ := kept
        by_cases comma : m.peek.kind = .comma
        · have above' : region.floor ≤ m.braceDepth := level ▸ above
          have level' : m.advance.braceDepth = s.braceDepth := by
            rw [State.advance_braceDepth, comma]
            exact level
          have shorter : m.advance.tokens.length < n := by
            have moved := item.length_le s
            have two := m.two_le_length_of_peek (by rw [comma]; decide)
            rw [step] at moved
            have moved : m.tokens.length ≤ s.tokens.length := moved
            rw [State.length_advance]
            omega
          have rest := ih _ shorter (within'.advance above') (level' ▸ above) rfl
          rw [itemsFrom_of_comma step comma]
          generalize itemsFrom item m.advance = result at rest
          obtain ⟨outcome, t⟩ := result
          have rest := rest.trans (adds.trans (.of_eq rfl))
          cases outcome with
          | ok vs => exact ⟨rest.1, rest.2.1, rest.2.2.trans level'⟩
          | error fault => exact rest
        · rw [itemsFrom_of_last step comma]
          exact ⟨within', adds, level⟩

theorem keeps_listed (h : LevelItem region item) : LevelItem region (listed item) := by
  intro s within above
  apply keeps_bind (keeps_peekIs within)
  rintro _ _ - ⟨rfl, rfl⟩
  by_cases closed : s.peek.kind = .rightParen
  · rw [if_pos (decide_eq_true closed)]
    apply keeps_bind (keeps_advance within above)
    rintro _ _ within' rfl
    refine keeps_pure within' ?_
    rw [State.advance_braceDepth, closed]
    rfl
  · rw [if_neg (by simpa using closed)]
    apply keeps_bind (keeps_items h within above)
    intro values m within' level
    apply keeps_bind (keeps_expect within' (level ▸ above) .rightParen)
    rintro _ t within'' ⟨-, level'⟩
    exact keeps_pure within'' (level'.trans level)

end

/-! ### Statements -/

/-- Every expression is read in the region, and if it ends well, then it began with no brace and
ends at the depth at which it began. -/
def Confined (region : Region) (expr : Precedence → Parser Expression) : Prop :=
  ∀ bound ⦃s⦄, region.Within s →
    region.Keeps s (fun _ t => s.current.kind.Plain ∧ t.braceDepth = s.braceDepth)
      ((expr bound).run s)

section
variable {expr : Precedence → Parser Expression}

/-- An expression behind a token that has been recognized, and what follows it. -/
theorem keeps_behind {β : Type} {good : β → State → Prop} {second : Expression → Parser β}
    (h : Confined region expr) (within : region.Within s) (above : region.floor ≤ s.braceDepth)
    (bound : Precedence)
    (next : ∀ v t, region.Within t → t.braceDepth = s.braceDepth →
      region.Keeps t good ((second v).run t)) :
    region.Keeps s good ((do advance; let v ← expr bound; second v).run s) := by
  apply keeps_bind (keeps_advance within above)
  rintro _ _ within' rfl
  apply keeps_bind (h bound within')
  rintro v t within'' ⟨plain, level⟩
  refine next v t within'' ?_
  rw [level, State.advance_braceDepth]
  exact braceStep_plain plain _

/-- A statement may end with a semicolon. -/
theorem keeps_ending (within : region.Within s) (above : region.floor ≤ s.braceDepth)
    (statement : Statement) :
    region.Keeps s (fun _ t => t.braceDepth = s.braceDepth)
      ((do skip .semicolon; pure statement).run s) := by
  have plain : Kind.Plain .semicolon := by constructor <;> decide
  apply keeps_bind (keeps_skip within above plain)
  intro _ t within' level
  exact keeps_pure within' level

theorem keeps_statementAt (h : Confined region expr) (within : region.Within s) :
    region.Keeps s (fun _ t => s.current.kind.Plain ∧ t.braceDepth = s.braceDepth)
      ((statementAt expr s.current).run s) := by
  unfold statementAt
  split
  · rename_i kind
    have plain : s.current.kind.Plain := by rw [kind]; constructor <;> decide
    have above := within.floor_le plain
    apply keeps_bind (keeps_expect within above .identifier)
    rintro name m₁ within₁ ⟨-, level₁⟩
    have level₁ : m₁.braceDepth = s.braceDepth := level₁
    apply keeps_bind (keeps_expect within₁ (level₁ ▸ above) .assign)
    rintro _ m₂ within₂ ⟨-, level₂⟩
    have level₂ : m₂.braceDepth = s.braceDepth := level₂.trans level₁
    apply keeps_behind h within₂ (level₂ ▸ above) .lowest
    intro value m₃ within₃ level₃
    have level₃ : m₃.braceDepth = s.braceDepth := level₃.trans level₂
    refine (keeps_ending within₃ (level₃ ▸ above) _).mono ?_
    intro _ t _ level₄
    exact ⟨plain, level₄.trans level₃⟩
  · rename_i kind
    have plain : s.current.kind.Plain := by rw [kind]; constructor <;> decide
    have above := within.floor_le plain
    apply keeps_behind h within above .lowest
    intro value m within' level
    refine (keeps_ending within' (level ▸ above) _).mono ?_
    intro _ t _ level'
    exact ⟨plain, level'.trans level⟩
  · apply keeps_bind (h .lowest within)
    rintro value m within' ⟨plain, level⟩
    have above := within.floor_le plain
    refine (keeps_ending within' (level ▸ above) _).mono ?_
    intro _ t _ level'
    exact ⟨plain, level'.trans level⟩

theorem keeps_note (within : region.Within s) {event : Event} (h : event.fault? = none) :
    region.Keeps s (fun _ t => s.note event = t) ((note event).run s) := by
  refine ⟨within, .of_eq ?_, rfl⟩
  simp [State.faults, State.history, State.note, h]

theorem keeps_statement (h : Confined region expr) (within : region.Within s) :
    region.Keeps s (fun _ t => s.current.kind.Plain ∧ t.braceDepth = s.braceDepth)
      ((statement expr).run s) := by
  apply keeps_bind (keeps_current within)
  rintro _ _ - ⟨rfl, rfl⟩
  apply keeps_bind (keeps_note within rfl)
  rintro _ _ within₁ rfl
  apply keeps_bind (keeps_statementAt h within₁)
  rintro w m within₂ ⟨plain, level⟩
  apply keeps_bind (keeps_note within₂ rfl)
  rintro _ _ within₃ rfl
  exact keeps_pure within₃ ⟨plain, level⟩

/-! ### Blocks -/

/-- Recovery inside of a block stops at the depth of the block. -/
theorem synchronize_within (within : region.Within s) (above : region.floor ≤ s.braceDepth) :
    region.Within (s.synchronize region.floor) ∧
      (s.synchronize region.floor).braceDepth = region.floor ∧
      (s.synchronize region.floor).faults = s.faults := by
  generalize floor_eq : region.floor = depth
  fun_induction State.synchronize depth s with
  | case1 s boundary =>
    subst floor_eq
    have level : s.braceDepth ≤ region.floor := by
      have here := within.current.2
      have next := (within.peek above).2
      simp only [State.atBoundary, here, next, decide_false, Bool.false_or, Bool.and_eq_true,
        decide_eq_true_eq] at boundary
      exact boundary.1
    exact ⟨within, Nat.le_antisymm level above, rfl⟩
  | case2 s notBoundary ih =>
    subst floor_eq
    refine ih (within.advance above) ?_
    -- a closing brace at the depth of the block would have been a boundary
    refine Nat.le_of_not_lt fun below => notBoundary ?_
    obtain ⟨closes, level⟩ := braceStep_lt above below
    simp [State.atBoundary, closes, level]

/-- The statements of a block are read up to its closing brace, whatever they are. -/
theorem statementsFrom_contained (h : Confined region expr)
    (inside : region.Inside region.floor s.tokens)
    (counted : s.braceDepth = braceStep region.floor s.current.kind) :
    ∃ ws t, statementsFrom expr region.floor s = (.ok ws, t) ∧
      t.tokens = region.closing :: region.rest ∧ t.braceDepth + 1 = region.floor ∧
      s.Adds region.Tolerates t := by
  induction length : s.tokens.length using Nat.strongRecOn generalizing s with
  | ind n ih =>
    have positive := inside.closing.1
    have within : region.Within s := ⟨_, inside, counted⟩
    by_cases closed : s.current.kind = .rightBrace
    · have fallen : s.braceDepth = region.floor - 1 := by rw [counted, closed]; rfl
      obtain ⟨tokens, depth⟩ := within.at_closing (by omega)
      exact ⟨[], s, statementsFrom_of_brace expr closed, tokens, depth, .refl s⟩
    have notEnded := within.current.2
    have nonempty := List.length_pos_iff.2 (s.tokens_ne_nil_of_current notEnded)
    have kept := keeps_statement h within
    have moved := (statement expr).length_le s
    cases step : (statement expr).run s with
    | mk outcome m =>
      rw [step] at kept
      have moved : m.tokens.length ≤ s.tokens.length := by rwa [step] at moved
      cases outcome with
      | ok w =>
        -- the statement has ended at the depth of the block, so the next one begins inside
        obtain ⟨within', adds, plain, level⟩ := kept
        have level : m.braceDepth = region.floor := by rw [level, counted, braceStep_plain plain]
        have inside' := within'.inside_advance (Nat.le_of_eq level.symm)
        rw [level] at inside'
        obtain ⟨ws, t, run, tokens, depth, adds'⟩ := ih m.advance.tokens.length
          (by rw [State.length_advance]; omega) inside'
          (by rw [State.advance_braceDepth, level]; rfl) rfl
        refine ⟨w :: ws, t, ?_, tokens, depth, adds.trans adds'⟩
        rw [statementsFrom_of_ok expr closed notEnded step, run]
        rfl
      | error fault =>
        obtain ⟨within', adds, tolerated⟩ := kept
        have adds : s.Adds region.Tolerates (m.note (.failed fault)) := by
          obtain ⟨found, faults, all⟩ := adds
          refine ⟨found ++ [fault], ?_, ?_⟩
          · rw [State.faults_note_failed, faults, List.append_assoc]
          · intro other member
            rcases List.mem_append.1 member with member | member
            · exact all other member
            · exact List.mem_singleton.1 member ▸ tolerated
        rw [statementsFrom_of_error expr closed notEnded step]
        by_cases ended : m.braceDepth < region.floor
        · -- the statement has run into the closing brace of the block
          obtain ⟨tokens, depth⟩ := within'.at_closing ended
          have current : m.current = region.closing := by simp [State.current, tokens]
          rw [if_pos ⟨by rw [current]; exact inside.closing.2.1, ended⟩]
          exact ⟨[], _, rfl, tokens, depth, adds⟩
        · -- recovery leads to a position of the block at its own depth
          rw [if_neg fun both => ended both.2]
          obtain ⟨within'', level, faults⟩ :=
            synchronize_within (s := m.note (.failed fault)) within' (Nat.not_lt.1 ended)
          have inside' := within''.inside_advance (Nat.le_of_eq level.symm)
          rw [level] at inside'
          have shorter := m.length_resume region.floor fault
          obtain ⟨ws, t, run, tokens, depth, adds'⟩ := ih _ (by omega) inside'
            (by rw [State.advance_braceDepth, level]; rfl) rfl
          exact ⟨ws, t, run, tokens, depth, (adds.trans (.of_eq faults)).trans adds'⟩

/-- A block inside of the region ends in the region, at the depth at which it was entered. -/
theorem keeps_block (h : ∀ inner : Region, Confined inner expr) (within : region.Within s)
    (opened : s.current.kind = .leftBrace) :
    region.Keeps s (fun _ t => t.braceDepth + 1 = s.braceDepth) ((block expr).run s) := by
  obtain ⟨base, inside, counted⟩ := within
  have counted : s.braceDepth = base + 1 := by rw [counted, opened]; rfl
  have floor_le := inside.floor_le
  -- the way to the closing brace of the region leads through the region of this block
  have ahead := Within.inside_advance ⟨base, inside, by rw [counted, opened]; rfl⟩
    (show region.floor ≤ s.braceDepth by omega)
  rw [counted] at ahead
  obtain ⟨closing, rest, inner, outer⟩ := ahead.split floor_le (Nat.lt_succ_self base)
  obtain ⟨ws, t, run, tokens, depth, adds⟩ :=
    statementsFrom_contained (h _) inner (by rw [State.advance_braceDepth, counted]; rfl)
  have read : (block expr).Reads region.Tolerates s ⟨s.current, ws⟩ t := by
    refine (reads_block expr).2 ⟨ws, ⟨?_, adds⟩, rfl⟩
    rw [counted]
    exact run
  obtain ⟨-, kind, permitted⟩ := inner.closing
  have kind : closing.kind = .rightBrace := kind
  have tokens : t.tokens = closing :: rest := tokens
  have fallen : braceStep (base + 1) closing.kind = base := by rw [kind]; rfl
  have level : t.braceDepth = base := Nat.succ.inj depth
  have inside : region.Inside (base + 1) t.tokens := by
    rw [tokens]
    refine .step permitted ?_ (Nat.le_succ_of_le floor_le) (fallen.symm ▸ outer)
    exact fun ended => absurd (kind.symm.trans ended) (by decide)
  have current : t.current = closing := by simp [State.current, tokens]
  rw [read.1]
  refine ⟨⟨base + 1, inside, ?_⟩, read.2, ?_⟩
  · rw [level, current, fallen]
  · show t.braceDepth + 1 = s.braceDepth
    rw [level, counted]

/-! ### Operands -/

theorem keeps_integer (within : region.Within s) :
    region.Keeps s (fun _ t => t.braceDepth = s.braceDepth) ((integer s.current).run s) := by
  unfold integer
  dsimp only
  split
  · exact keeps_pure within rfl
  · exact keeps_fail within rfl

theorem keeps_unary (h : Confined region expr) (within : region.Within s)
    (above : region.floor ≤ s.braceDepth) (token : Token) :
    region.Keeps s (fun _ t => t.braceDepth = s.braceDepth) ((unary expr token).run s) := by
  apply keeps_behind h within above .unary
  intro operand t within' level
  exact keeps_pure within' level

theorem keeps_group (h : Confined region expr) (within : region.Within s)
    (above : region.floor ≤ s.braceDepth) :
    region.Keeps s (fun _ t => t.braceDepth = s.braceDepth) ((group expr).run s) := by
  apply keeps_behind h within above .lowest
  intro inner m within' level
  apply keeps_bind (keeps_expect within' (level ▸ above) .rightParen)
  rintro _ t within'' ⟨-, level'⟩
  exact keeps_pure within'' (level'.trans level)

/-- A block that has to follow. -/
theorem keeps_body {β : Type} {good : β → State → Prop} {second : Block → Parser β}
    (h : ∀ inner : Region, Confined inner expr) (within : region.Within s)
    (above : region.floor ≤ s.braceDepth)
    (next : ∀ b t, region.Within t → t.braceDepth = s.braceDepth →
      region.Keeps t good ((second b).run t)) :
    region.Keeps s good ((do let _ ← expect .leftBrace; let b ← block expr; second b).run s) := by
  apply keeps_bind (keeps_expect within above .leftBrace)
  rintro _ m within' ⟨opened, level⟩
  have level : m.braceDepth = s.braceDepth + 1 := level
  apply keeps_bind (keeps_block h within' opened)
  intro b t within'' level'
  exact next b t within'' (by omega)

theorem keeps_conditional (h : ∀ inner : Region, Confined inner expr) (within : region.Within s)
    (above : region.floor ≤ s.braceDepth) (token : Token) :
    region.Keeps s (fun _ t => t.braceDepth = s.braceDepth) ((conditional expr token).run s) := by
  apply keeps_bind (keeps_expect within above .leftParen)
  rintro _ m₁ within₁ ⟨-, level₁⟩
  have level₁ : m₁.braceDepth = s.braceDepth := level₁
  apply keeps_behind (h region) within₁ (level₁ ▸ above) .lowest
  intro condition m₂ within₂ level₂
  have level₂ : m₂.braceDepth = s.braceDepth := level₂.trans level₁
  apply keeps_bind (keeps_expect within₂ (level₂ ▸ above) .rightParen)
  rintro _ m₃ within₃ ⟨-, level₃⟩
  have level₃ : m₃.braceDepth = s.braceDepth := level₃.trans level₂
  apply keeps_body h within₃ (level₃ ▸ above)
  intro consequence m₄ within₄ level₄
  have level₄ : m₄.braceDepth = s.braceDepth := level₄.trans level₃
  apply keeps_bind (keeps_peekIs within₄)
  rintro _ _ - ⟨rfl, rfl⟩
  by_cases more : m₄.peek.kind = .elseWord
  · rw [if_pos (decide_eq_true more)]
    apply keeps_bind (keeps_advance within₄ (level₄ ▸ above))
    rintro _ _ within₅ rfl
    have level₅ : m₄.advance.braceDepth = s.braceDepth := by
      rw [State.advance_braceDepth, more]
      exact level₄
    apply keeps_body h within₅ (level₅ ▸ above)
    intro alternative t within₆ level₆
    exact keeps_pure within₆ (level₆.trans level₅)
  · rw [if_neg (by simpa using more)]
    exact keeps_pure within₄ level₄

theorem keeps_parameter : LevelItem region parameter := by
  intro s within above
  apply keeps_bind (keeps_expect within above .identifier)
  rintro _ t within' ⟨-, level⟩
  exact keeps_pure within' level

theorem keeps_function (h : ∀ inner : Region, Confined inner expr) (within : region.Within s)
    (above : region.floor ≤ s.braceDepth) (token : Token) :
    region.Keeps s (fun _ t => t.braceDepth = s.braceDepth) ((function expr token).run s) := by
  apply keeps_bind (keeps_expect within above .leftParen)
  rintro _ m₁ within₁ ⟨-, level₁⟩
  have level₁ : m₁.braceDepth = s.braceDepth := level₁
  apply keeps_bind (keeps_listed keeps_parameter within₁ (level₁ ▸ above))
  intro parameters m₂ within₂ level₂
  have level₂ : m₂.braceDepth = s.braceDepth := level₂.trans level₁
  apply keeps_body h within₂ (level₂ ▸ above)
  intro body t within₃ level₃
  exact keeps_pure within₃ (level₃.trans level₂)

theorem keeps_operand (h : ∀ inner : Region, Confined inner expr) (within : region.Within s) :
    region.Keeps s (fun _ t => s.current.kind.Plain ∧ t.braceDepth = s.braceDepth)
      ((operand expr).run s) := by
  -- where an operand begins with no brace, the depth is that of its first token
  have level {parser : Parser Expression} (plain : s.current.kind.Plain)
      (kept : region.floor ≤ s.braceDepth →
        region.Keeps s (fun _ t => t.braceDepth = s.braceDepth) (parser.run s)) :
      region.Keeps s (fun _ t => s.current.kind.Plain ∧ t.braceDepth = s.braceDepth)
        (parser.run s) :=
    (kept (within.floor_le plain)).mono fun _ _ _ same => ⟨plain, same⟩
  apply keeps_bind (keeps_current within)
  rintro _ _ - ⟨rfl, rfl⟩
  split
  case h_10 => exact keeps_fail within rfl
  all_goals
    rename_i kind
    refine level (by rw [kind]; constructor <;> decide) fun above => ?_
  · exact keeps_pure within rfl
  · exact keeps_integer within
  · exact keeps_pure within rfl
  · exact keeps_pure within rfl
  · exact keeps_unary (h region) within above _
  · exact keeps_unary (h region) within above _
  · exact keeps_group (h region) within above
  · exact keeps_conditional h within above _
  · exact keeps_function h within above _

/-! ### Operators -/

theorem keeps_argument (h : Confined region expr) : LevelItem region (argument expr) := by
  intro s within above
  apply keeps_bind (keeps_advance within above)
  rintro _ _ within' rfl
  refine (h .lowest within').mono ?_
  rintro _ t - ⟨plain, level⟩
  rw [level, State.advance_braceDepth]
  exact braceStep_plain plain _

theorem keeps_operation (h : Confined region expr) (within : region.Within s)
    (above : region.floor ≤ s.braceDepth) (left : Expression) :
    region.Keeps s (fun _ t => t.braceDepth = s.braceDepth) ((operation expr left).run s) := by
  apply keeps_bind (keeps_current within)
  rintro _ _ - ⟨rfl, rfl⟩
  split
  · apply keeps_bind (keeps_listed (keeps_argument h) within above)
    intro arguments t within' level
    exact keeps_pure within' level
  · apply keeps_behind h within above _
    intro right t within' level
    exact keeps_pure within' level

/-- A token that binds is no brace. -/
theorem plain_of_binds {bound : Precedence} {kind : Kind} (h : bound < .ofKind kind) :
    kind.Plain := by
  constructor <;> rintro rfl <;> exact absurd h (Nat.not_lt_zero _)

theorem keeps_fold (h : Confined region expr) (bound : Precedence) (left : Expression)
    (within : region.Within s) (above : region.floor ≤ s.braceDepth) :
    region.Keeps s (fun _ t => t.braceDepth = s.braceDepth) (foldFrom expr bound left s) := by
  induction length : s.tokens.length using Nat.strongRecOn generalizing s left with
  | ind n ih =>
    by_cases tighter : bound < .ofKind s.peek.kind
    · have plain := plain_of_binds tighter
      have level : s.advance.braceDepth = s.braceDepth := braceStep_plain plain _
      have kept := keeps_operation h (within.advance above) (level ▸ above) left
      have shorter := (operation expr left).length_le s.advance
      cases step : (operation expr left).run s.advance with
      | mk outcome m =>
        rw [step] at kept shorter
        have kept := kept.trans (.of_eq rfl)
        cases outcome with
        | error fault =>
          rw [foldFrom_of_error expr tighter step]
          exact kept
        | ok whole =>
          obtain ⟨within', adds, level'⟩ := kept
          have level' : m.braceDepth = s.braceDepth := level'.trans level
          have two := s.two_le_length_of_peek fun ended => by
            rw [ended] at tighter
            exact Nat.not_lt_zero _ tighter
          have shorter : m.tokens.length < n := by
            have shorter : m.tokens.length ≤ s.advance.tokens.length := shorter
            rw [State.length_advance] at shorter
            omega
          rw [foldFrom_of_ok expr tighter step]
          have rest := ih _ shorter whole within' (level' ▸ above) rfl
          refine (rest.trans adds).mono ?_
          intro _ t _ level''
          exact level''.trans level'
    · rw [foldFrom_of_weak expr tighter]
      exact ⟨within, .refl s, rfl⟩

end

/-- Expressions stay in every region, however many levels are left. -/
theorem confined_expressionWithin (levels : Nat) (region : Region) :
    Confined region (expressionWithin levels) := by
  induction levels generalizing region with
  | zero =>
    -- the fault is found at the token at which no more expression could be opened
    intro bound s within
    exact ⟨within, .refl s, within.current.1⟩
  | succ levels ih =>
    intro bound s within
    refine keeps_nested (fun n => ?_) fun _ _ _ same => same
    have within : region.Within { s with nesting := n } := within
    apply keeps_bind (keeps_operand ih within)
    rintro left m within' ⟨plain, level⟩
    have above := within.floor_le plain
    refine (keeps_fold (ih region) bound left within' (level ▸ above)).mono ?_
    intro _ t _ level'
    exact ⟨plain, level'.trans level⟩

/-- **A block contains its faults**: whatever stands between two braces that match each other, the
block parser starts at the one and ends at the other, and all faults that it finds are found at
tokens in between or at the closing brace. -/
theorem block_contained {expr : Precedence → Parser Expression}
    (h : ∀ region : Region, Confined region expr) {opening closing : Token}
    {content rest : List Token} (closes : closing.kind = .rightBrace) (balanced : Balanced content)
    (notEnded : ∀ token ∈ content, token.kind ≠ .endOfInput) (counted : 0 < s.braceDepth)
    (tokens : s.tokens = opening :: (content ++ closing :: rest)) :
    ∃ b t, (block expr).Reads (fun fault => fault.token ∈ content ++ [closing]) s b t ∧
      t.tokens = closing :: rest ∧ t.braceDepth + 1 = s.braceDepth ∧ b.token = opening := by
  let region : Region := ⟨(· ∈ content ++ [closing]), s.braceDepth, closing, rest⟩
  have permitted : region.allowed closing := by
    show closing ∈ content ++ [closing]
    simp
  have ahead : region.Inside (region.floor + 0) (content ++ closing :: rest) :=
    inside_of_depthAfter? counted closes permitted (balanced_iff.1 balanced)
      fun token member => ⟨List.mem_append_left _ member, notEnded token member⟩
  have inside : region.Inside region.floor s.advance.tokens := by
    rw [State.advance_tokens, tokens]
    exact ahead
  obtain ⟨ws, t, run, tokens', depth, adds⟩ :=
    statementsFrom_contained (h region) inside rfl
  refine ⟨⟨s.current, ws⟩, t, (reads_block _).2 ⟨ws, ⟨run, adds⟩, rfl⟩, tokens', depth, ?_⟩
  show s.current = opening
  simp [State.current, tokens]

end Parser

end MonkeyLang
