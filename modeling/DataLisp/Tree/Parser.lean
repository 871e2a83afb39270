/-
Parsers over tokens.

A parser takes the tokens ahead, gives a value and the tokens that are left, and notes
what was wrong. It never fails: where a token is missing it says so and goes on without
it. The position at which the text ends is at hand for messages about its end.
-/
import DataLisp.Noted
import DataLisp.Token.Basic
import DataLisp.Tree.Problem

set_option autoImplicit false

namespace DataLisp.Tree

/-- A parser: from the end position and the tokens ahead to a value and the tokens left,
with the faults found on the way. -/
abbrev Parser := ReaderT Position (StateT (List PlacedToken) (Noted Diagnostic))

namespace Parser

variable {α : Type}

/-- The next token, which stays where it is. -/
def peek : Parser (Option Token) := do
  return (← get).head?.map PlacedToken.token

/-- The position of the next token, or of the end. -/
def position : Parser Position := do
  match (← get).head? with
  | some t => return t.position
  | none => read

/-- Leaves the next token behind. -/
def skip : Parser Unit :=
  modify List.tail

/-- Notes a fault at a position. -/
def reportAt (p : Position) (problem : Problem) : Parser Unit := fun _ tokens =>
  ⟨((), tokens), [problem.report p]⟩

/-- Notes a fault at the next token. -/
def report (problem : Problem) : Parser Unit := do
  reportAt (← position) problem

/-- Takes the next token if it is the given one, and says whether it was. -/
def eat (wanted : Token) : Parser Bool := do
  if (← peek) = some wanted then
    skip
    return true
  else
    return false

/-- Takes the given token, or notes that it is missing. -/
def expect (wanted : Token) : Parser Unit := do
  unless ← eat wanted do
    report (.missing wanted (← peek))

/-- Runs a parser again and again while the next token is of a class. It also ends when a
run takes no token, which a parser that starts with that class never does. -/
def many (starts : Token → Bool) (parser : Parser α) : Parser (List α) := fun stop tokens =>
  if tokens.head?.any (fun t => starts t.token) then
    let one := parser stop tokens
    if one.value.2.length < tokens.length then
      let more := many starts parser stop one.value.2
      ⟨(one.value.1 :: more.value.1, more.value.2), one.notes ++ more.notes⟩
    else
      ⟨([one.value.1], one.value.2), one.notes⟩
  else
    ⟨([], tokens), []⟩
termination_by _ tokens => tokens.length

/-! ## What the steps do

Each step as a function of the tokens ahead. The notes of a sequence are those of its
steps in order, by `bind_apply` and the laws of `Noted`. -/

variable {β : Type} (stop : Position) (tokens : List PlacedToken)

theorem pure_apply (a : α) : (pure a : Parser α) stop tokens = ⟨(a, tokens), []⟩ := rfl

/-- A sequence goes on from what the first step gives and leaves. -/
theorem bind_apply (x : Parser α) (f : α → Parser β) :
    (x >>= f) stop tokens = (x stop tokens >>= fun r => f r.1 stop r.2) := rfl

/-- Looking ahead leaves the tokens as they are. -/
theorem peek_apply :
    peek stop tokens = ⟨(tokens.head?.map PlacedToken.token, tokens), []⟩ := rfl

/-- Behind the last token the place is that of the end. -/
theorem position_apply :
    position stop tokens = ⟨((tokens.head?.map PlacedToken.position).getD stop, tokens), []⟩ := by
  cases tokens <;> rfl

theorem skip_apply : skip stop tokens = ⟨((), tokens.tail), []⟩ := rfl

/-- A wanted token is taken if it comes next. -/
theorem eat_apply (wanted : Token) :
    eat wanted stop tokens =
      if tokens.head?.map PlacedToken.token = some wanted then ⟨(true, tokens.tail), []⟩
      else ⟨(false, tokens), []⟩ := by
  by_cases h : tokens.head?.map PlacedToken.token = some wanted
  · rw [if_pos h]
    show (if tokens.head?.map PlacedToken.token = some wanted then _ else _ : Parser Bool)
      stop tokens = _
    rw [if_pos h]
    rfl
  · rw [if_neg h]
    show (if tokens.head?.map PlacedToken.token = some wanted then _ else _ : Parser Bool)
      stop tokens = _
    rw [if_neg h]
    rfl

/-- A problem is reported where the next token stands. -/
theorem report_apply (problem : Problem) :
    report problem stop tokens = ⟨((), tokens),
      [problem.report ((tokens.head?.map PlacedToken.position).getD stop)]⟩ := by
  unfold report
  rw [bind_apply, position_apply]
  rfl

/-- A token that is asked for is taken, or else reported as missing. -/
theorem expect_apply (wanted : Token) :
    expect wanted stop tokens =
      if tokens.head?.map PlacedToken.token = some wanted then ⟨((), tokens.tail), []⟩
      else report (.missing wanted (tokens.head?.map PlacedToken.token)) stop tokens := by
  unfold expect
  rw [bind_apply, eat_apply]
  split <;> rfl

end Parser

end DataLisp.Tree
