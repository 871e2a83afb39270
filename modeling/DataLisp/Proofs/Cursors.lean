/-
A cursor that cannot go wrong.

The parser reads from lists, which end by themselves, and counts down the levels that are left. One
can also read with a cursor: an index into an array of tokens with a mark for the end behind them, a
count of the levels that are open, and a count of the brackets that are skipped. That leaves room
for mistakes. An index can run out of the array, a count can fall below zero or rise above its
limit, and a loop can go on for ever. The machine here reads that way. Every mistake is a `Fault`
that stops it. Nothing bounds its loops, so they are given fuel for their turns, and where it runs
out the machine has not come to an end.

With enough fuel none of that happens. What the machine does on the marks of a row of tokens is what
the parser does on the row (`Mirrors`): the index is the number of tokens that are behind the
cursor, and the levels that are open and the levels that are left add up to the limit. Each step
mirrors a step, and so does each sequence of steps. A loop does because each of its turns takes a
token (`loop_mirrors`), and skipping does because it begins at a bracket that opens, so the count is
at least one until the bracket that closes it (`skip_mirrors`).
-/
import DataLisp.Proofs.Recovery

set_option autoImplicit false

namespace DataLisp.Cursor

open DataLisp.Tree (Parser Problem Expected ReadsAll maxDepth opens closes startsEntry dropBalanced)

/-! ## The machine -/

/-- Where a cursor can stand: at a token, or at the end of the text. -/
structure Mark where
  token : Option Token
  position : Position

/-- The mark of a token. -/
def Mark.ofToken (t : PlacedToken) : Mark :=
  ⟨some t.token, t.position⟩

/-- The marks of a row of tokens. The last is the end. -/
def marks (stop : Position) (tokens : List PlacedToken) : Array Mark :=
  (tokens.map Mark.ofToken).toArray.push ⟨none, stop⟩

/-- What can go wrong. -/
inductive Fault where
  /-- A mark is read that is not there. -/
  | pastEnd
  /-- Something is closed and nothing is open. -/
  | belowZero
  /-- More levels are open than allowed. -/
  | aboveLimit
  /-- A level is still open after a top-level group. -/
  | unbalanced
  /-- A turn of a loop has taken no token. -/
  | stuck

/-- How far the machine has come: the index of the cursor, the levels that are open, and what is
noted so far. -/
structure State where
  index : Nat
  depth : Nat
  notes : Diagnostics

/-- A step of the machine on some marks. It ends in a new state or with a fault, or not at all. -/
abbrev Machine := ReaderT (Array Mark) (StateT State (ExceptT Fault Option))

/-- The mark at the cursor. -/
def peek : Machine Mark := do
  match (← read)[(← get).index]? with
  | some mark => return mark
  | none => throw .pastEnd

/-- The mark at the cursor, which moves on unless it is at the end. -/
def advance : Machine Mark := do
  let mark ← peek
  if mark.token.isSome then
    modify fun s => { s with index := s.index + 1 }
  return mark

/-- Notes a problem at a position. -/
def reportAt (p : Position) (problem : Problem) : Machine Unit :=
  modify fun s => { s with notes := s.notes ++ [problem.report p] }

/-- Moves on if the given token is at the cursor, and says whether it is. -/
def eat (wanted : Token) : Machine Bool := do
  if (← peek).token = some wanted then
    let _ ← advance
    return true
  else
    return false

/-- Moves on if the given token is at the cursor, and notes that it is missing otherwise. -/
def expect (wanted : Token) : Machine Unit := do
  unless ← eat wanted do
    let mark ← peek
    reportAt mark.position (.missing wanted mark.token)

/-- Notes that something else is wanted than what is at the cursor. -/
def unexpected (what : Expected) : Machine Unit := do
  let mark ← peek
  reportAt mark.position (.expected what mark.token)

/-- How many levels are open. -/
def depth : Machine Nat := do
  return (← get).depth

/-- Opens a level. -/
def descend : Machine Unit := do
  if (← depth) < maxDepth then
    modify fun s => { s with depth := s.depth + 1 }
  else
    throw .aboveLimit

/-- One less of what is open. -/
def countDown (count : Nat) : Machine Nat := do
  if count = 0 then
    throw .belowZero
  return count - 1

/-- Closes a level. -/
def ascend : Machine Unit := do
  let outer ← countDown (← depth)
  modify fun s => { s with depth := outer }

/-- Checks that no level is open. -/
def level : Machine Unit := do
  unless (← depth) = 0 do
    throw .unbalanced

/-- Where the cursor is. -/
def index : Machine Nat := do
  return (← get).index

/-- Checks that the cursor has moved on from where a turn of a loop began. -/
def moved (start : Nat) : Machine Unit := do
  unless start < (← index) do
    throw .stuck

/-- An identifier. -/
def identifier : Machine (Option String) := do
  match (← peek).token with
  | some (.identifier name) =>
    let _ ← advance
    return some (String.ofList name)
  | _ =>
    unexpected .identifier
    return none

/-- A name, empty where there is no identifier. -/
def name : Machine String := do
  return (← identifier).getD ""

/-- A key. -/
def key : Machine (Option String) := do
  let mark ← peek
  match mark.token with
  | some (.identifier name) =>
    let _ ← advance
    return some (String.ofList name)
  | some (.integer n) =>
    if n.isUnsigned then
      let _ ← advance
      return some n.text
    else
      let _ ← advance
      reportAt mark.position (.signedKey n)
      return none
  | _ =>
    unexpected .key
    return none

/-- A scalar, given the mark at the cursor. -/
def leaf (mark : Mark) : Machine Tree := do
  match mark.token with
  | some (.integer n) =>
    match n.toInt64? with
    | some i =>
      let _ ← advance
      return .integer i
    | none =>
      reportAt mark.position (.outOfRange n)
      let _ ← advance
      return .invalid
  | some (.float n) =>
    let _ ← advance
    return .float n.toBinary64
  | some (.string content) =>
    let _ ← advance
    return .string (String.ofList content)
  | some (.bool b) =>
    let _ ← advance
    return .bool b
  | some .null =>
    let _ ← advance
    return .null
  | _ =>
    unexpected .value
    return .invalid

/-- What the machine does when its fuel has run out: it does not come to an end. -/
def exhausted {α : Type} : Machine α := fun _ _ => (none : Option (Except Fault (α × State)))

/-- Moves past what is opened at the cursor, up to where it is closed. `count` is what is open. -/
def skipNested : Nat → Nat → Machine Unit
  | 0, _ => exhausted
  | fuel + 1, count => do
    let start ← index
    match (← advance).token with
    | none => return
    | some token =>
      moved start
      if opens token then
        skipNested fuel (count + 1)
      else if closes token then
        let left ← countDown count
        if left = 0 then
          return
        skipNested fuel left
      else
        skipNested fuel count

/-- Takes turns as long as the token at the cursor is of a class. -/
def loop {α : Type} (starts : Token → Bool) (turn : Machine α) : Nat → Machine (List α)
  | 0 => exhausted
  | fuel + 1 => do
    if (← peek).token.any starts then
      let start ← index
      let a ← turn
      moved start
      return a :: (← loop starts turn fuel)
    else
      return []

/-- An entry. -/
def entry (value : Machine Tree) : Machine Entry := do
  let p := (← peek).position
  let key ← if ← eat .colon then key else pure none
  return ⟨key, ← value, p⟩

/-- Entries as long as there are any, each with an optional comma after it. -/
def entries (fuel : Nat) (value : Machine Tree) : Machine (List Entry) :=
  loop startsEntry
    (do
      let e ← entry value
      let _ ← eat .comma
      return e)
    fuel

/-- The items of an array, which should have no keys. -/
def items (fuel : Nat) (value : Machine Tree) : Machine (List Tree) :=
  loop startsEntry
    (do
      let e ← entry value
      if e.key.isSome then
        reportAt e.position .keyedItem
      let _ ← eat .comma
      return e.value)
    fuel

/-- The inside of a group. -/
def groupForm (fuel : Nat) (value : Machine Tree) (p : Position) : Machine Form := do
  let name ← name
  let _ ← eat .comma
  return ⟨name, ← entries fuel value, p⟩

/-- The inside of an expression. -/
def expressionForm (fuel : Nat) (value : Machine Tree) (p : Position) : Machine Form := do
  let name ← name
  return ⟨name, ← entries fuel value, p⟩

/-- What is inside of brackets, and the bracket that closes them. -/
def inside (fuel : Nat) (value : Machine Tree) (mark : Mark) : Machine Tree := do
  match mark.token with
  | some .openParen =>
    let form ← groupForm fuel value mark.position
    expect .closeParen
    return .group form
  | some .openBracket =>
    let trees ← items fuel value
    expect .closeBracket
    return .array trees
  | _ =>
    let form ← expressionForm fuel value mark.position
    expect .closeParen
    return .expression form

/-- A group, an array or an expression, given the mark that opens it, or an invalid value where no
more levels may be opened. -/
def nested (fuel : Nat) (value : Machine Tree) (mark : Mark) : Machine Tree := do
  if maxDepth ≤ (← depth) then
    reportAt mark.position .tooDeep
    skipNested fuel 0
    return .invalid
  else
    descend
    let _ ← advance
    let tree ← inside fuel value mark
    ascend
    return tree

/-- A value. -/
def value : Nat → Machine Tree
  | 0 => exhausted
  | fuel + 1 => do
    let mark ← peek
    if mark.token.any opens then nested fuel (value fuel) mark else leaf mark

/-- All top-level groups. -/
def groups : Nat → Machine (List Form)
  | 0 => exhausted
  | fuel + 1 => do
    let start ← index
    let mark ← advance
    match mark.token with
    | none => return []
    | some .openParen =>
      let form ← groupForm fuel (value fuel) mark.position
      expect .closeParen
      level
      moved start
      return form :: (← groups fuel)
    | some got =>
      reportAt mark.position (.outside got)
      moved start
      groups fuel

/-! ## Mirrors -/

variable {α β : Type}

/-- **The machine mirrors a parser** from a cursor on, with the tokens `before` behind it and the
tokens `rest` ahead. Given enough fuel, it gives what the parser gives and notes what the parser
notes, and the cursor moves past what the parser takes. The levels that are open go from `d` to
`d'`. -/
def Mirrors (stop : Position) (before rest : List PlacedToken) (d d' : Nat)
    (m : Nat → Machine α) (x : Parser α) : Prop :=
  ∃ ts enough, rest = ts ++ (x stop rest).value.2 ∧ ∀ fuel ≥ enough, ∀ notes,
    m fuel (marks stop (before ++ rest)) ⟨before.length, d, notes⟩ =
      some (.ok ((x stop rest).value.1,
        ⟨(before ++ ts).length, d', notes ++ (x stop rest).notes⟩))

/-- The mark at a cursor with some tokens ahead. -/
def ahead (stop : Position) (rest : List PlacedToken) : Mark :=
  ⟨rest.head?.map PlacedToken.token, (rest.head?.map PlacedToken.position).getD stop⟩

section Steps

variable {stop : Position} {before rest : List PlacedToken} {t : PlacedToken} {d d' d₁ : Nat}
  {notes : Diagnostics} {marked : Array Mark} {s s' : State}

theorem bind_run {m : Machine α} {f : α → Machine β} {a : α}
    (h : m marked s = some (.ok (a, s'))) : (m >>= f) marked s = f a marked s' := by
  show (m marked s >>= _) = _
  rw [h]
  rfl

theorem peek_run (before rest : List PlacedToken) :
    peek (marks stop (before ++ rest)) ⟨before.length, d, notes⟩ =
      some (.ok (ahead stop rest, ⟨before.length, d, notes⟩)) := by
  have hmark : (marks stop (before ++ rest))[before.length]? = some (ahead stop rest) := by
    rw [marks, List.push_toArray, List.getElem?_toArray, List.map_append, List.append_assoc,
      List.getElem?_append_right (by simp)]
    cases rest <;> simp [ahead, Mark.ofToken]
  show (match (marks stop (before ++ rest))[before.length]? with
    | some mark => pure mark
    | none => throw .pastEnd : Machine Mark) _ _ = _
  rw [hmark]
  rfl

theorem advance_run (before : List PlacedToken) (t : PlacedToken) (rest : List PlacedToken) :
    advance (marks stop (before ++ t :: rest)) ⟨before.length, d, notes⟩ =
      some (.ok (.ofToken t, ⟨(before ++ [t]).length, d, notes⟩)) := by
  rw [advance, bind_run (peek_run before (t :: rest)), List.length_append]
  rfl

end Steps

namespace Mirrors

variable {stop : Position} {before rest : List PlacedToken} {t : PlacedToken} {d d' d₁ : Nat}
  {m : Nat → Machine α} {x y : Parser α} {f : Nat → α → Machine β} {g : α → Parser β}

/-- Only what the parser does on the tokens ahead matters. -/
theorem congr (hxy : x stop rest = y stop rest) (h : Mirrors stop before rest d d' m y) :
    Mirrors stop before rest d d' m x := by
  unfold Mirrors
  rw [hxy]
  exact h

/-- Whatever the machine does first without a change, it mirrors what it mirrors from there on. -/
theorem after {m' : Nat → Machine α}
    (hsteps : ∀ fuel notes, m' fuel (marks stop (before ++ rest)) ⟨before.length, d, notes⟩ =
      m fuel (marks stop (before ++ rest)) ⟨before.length, d₁, notes⟩)
    (h : Mirrors stop before rest d₁ d' m x) : Mirrors stop before rest d d' m' x := by
  obtain ⟨ts, enough, hrest, hrun⟩ := h
  exact ⟨ts, enough, hrest, fun fuel hfuel notes =>
    (hsteps fuel notes).trans (hrun fuel hfuel notes)⟩

/-- One more unit of fuel is enough for one more call. -/
theorem call {m' : Nat → Machine α} (hcall : ∀ fuel, m' (fuel + 1) = m fuel)
    (h : Mirrors stop before rest d d' m x) : Mirrors stop before rest d d' m' x := by
  obtain ⟨ts, enough, hrest, hrun⟩ := h
  refine ⟨ts, enough + 1, hrest, ?_⟩
  rintro (_ | fuel) hfuel notes
  · exact absurd hfuel (Nat.not_succ_le_zero enough)
  · rw [hcall]
    exact hrun fuel (Nat.le_of_succ_le_succ hfuel) notes

/-- More fuel does no harm. -/
theorem more (h : Mirrors stop before rest d d' m x) :
    Mirrors stop before rest d d' (fun fuel => m (fuel + 1)) x := by
  obtain ⟨ts, enough, hrest, hrun⟩ := h
  exact ⟨ts, enough, hrest, fun fuel hfuel => hrun (fuel + 1) (Nat.le_succ_of_le hfuel)⟩

theorem pure (a : α) : Mirrors stop before rest d d (fun _ => Pure.pure a) (Pure.pure a) := by
  refine ⟨[], 0, rfl, fun _ _ notes => ?_⟩
  rw [Parser.pure_apply, List.append_nil, List.append_nil]
  rfl

theorem bind (hm : Mirrors stop before rest d d₁ m x)
    (hf : ∀ ts, rest = ts ++ (x stop rest).value.2 →
      Mirrors stop (before ++ ts) (x stop rest).value.2 d₁ d'
        (fun fuel => f fuel (x stop rest).value.1) (g (x stop rest).value.1)) :
    Mirrors stop before rest d d' (fun fuel => m fuel >>= f fuel) (x >>= g) := by
  obtain ⟨ts, enough, hrest, hrun⟩ := hm
  obtain ⟨us, enough', hus, hmore⟩ := hf ts hrest
  have hsame : before ++ ts ++ (x stop rest).value.2 = before ++ rest := by
    rw [List.append_assoc, ← hrest]
  refine ⟨ts ++ us, max enough enough', ?_, ?_⟩
  · rw [List.append_assoc]
    exact hrest.trans (congrArg (ts ++ ·) hus)
  · intro fuel hfuel notes
    obtain ⟨hfirst, hthen⟩ := Nat.max_le.mp hfuel
    have hstep := hmore fuel hthen (notes ++ (x stop rest).notes)
    rw [hsame] at hstep
    refine (bind_run (hrun fuel hfirst notes)).trans (hstep.trans ?_)
    rw [Parser.bind_apply, Noted.notes_bind, List.append_assoc, List.append_assoc]
    rfl

/-- The machine looks at the mark ahead. -/
theorem look {f : Nat → Mark → Machine α}
    (h : Mirrors stop before rest d d' (fun fuel => f fuel (ahead stop rest)) x) :
    Mirrors stop before rest d d' (fun fuel => Cursor.peek >>= f fuel) x :=
  h.after fun _ _ => bind_run (peek_run before rest)

/-- The machine looks where the cursor is. -/
theorem index {f : Nat → Nat → Machine α}
    (h : Mirrors stop before rest d d' (fun fuel => f fuel before.length) x) :
    Mirrors stop before rest d d' (fun fuel => Cursor.index >>= f fuel) x :=
  h

/-- The machine looks how many levels are open. -/
theorem depth {f : Nat → Nat → Machine α}
    (h : Mirrors stop before rest d d' (fun fuel => f fuel d) x) :
    Mirrors stop before rest d d' (fun fuel => Cursor.depth >>= f fuel) x :=
  h

/-- The cursor has moved on. -/
theorem moved {f : Nat → Unit → Machine α} {start : Nat} (hstart : start < before.length)
    (h : Mirrors stop before rest d d' (fun fuel => f fuel ()) x) :
    Mirrors stop before rest d d' (fun fuel => Cursor.moved start >>= f fuel) x := by
  refine h.after fun _ _ => bind_run ?_
  show (if start < before.length then _ else _ : Machine Unit) _ _ = _
  rw [if_pos hstart]
  rfl

/-- No level is open. -/
theorem level {f : Nat → Unit → Machine α}
    (h : Mirrors stop before rest 0 d' (fun fuel => f fuel ()) x) :
    Mirrors stop before rest 0 d' (fun fuel => Cursor.level >>= f fuel) x :=
  h

/-- A level is opened where there is one left. -/
theorem descend {f : Nat → Unit → Machine α} (hd : d < maxDepth)
    (h : Mirrors stop before rest (d + 1) d' (fun fuel => f fuel ()) x) :
    Mirrors stop before rest d d' (fun fuel => Cursor.descend >>= f fuel) x := by
  refine h.after fun _ _ => bind_run ?_
  show (if d < maxDepth then _ else _ : Machine Unit) _ _ = _
  rw [if_pos hd]
  rfl

/-- A level is closed at the end. -/
theorem ascend (h : Mirrors stop before rest (d + 1) (d + 1) m x) :
    Mirrors stop before rest (d + 1) d
      (fun fuel => do let a ← m fuel; Cursor.ascend; return a) x := by
  obtain ⟨ts, enough, hrest, hrun⟩ := h
  exact ⟨ts, enough, hrest, fun fuel hfuel notes => bind_run (hrun fuel hfuel notes)⟩

/-- The parser looks at the next token. -/
theorem peek {m : Nat → Machine β} {g : Option Token → Parser β}
    (h : Mirrors stop before rest d d' m (g (rest.head?.map PlacedToken.token))) :
    Mirrors stop before rest d d' m (Parser.peek >>= g) :=
  h.congr rfl

/-- The parser looks at the next position. -/
theorem position {m : Nat → Machine β} {g : Position → Parser β}
    (h : Mirrors stop before rest d d' m
      (g ((rest.head?.map PlacedToken.position).getD stop))) :
    Mirrors stop before rest d d' m (Parser.position >>= g) :=
  h.congr (by cases rest <;> rfl)

/-- The cursor moves on and the parser skips a token. -/
theorem advance {f : Nat → Mark → Machine β} {g : Unit → Parser β}
    (h : Mirrors stop (before ++ [t]) rest d d' (fun fuel => f fuel (.ofToken t)) (g ())) :
    Mirrors stop before (t :: rest) d d' (fun fuel => Cursor.advance >>= f fuel)
      (Parser.skip >>= g) := by
  obtain ⟨ts, enough, hrest, hrun⟩ := h
  refine ⟨t :: ts, enough, congrArg (t :: ·) hrest, fun fuel hfuel notes => ?_⟩
  have hstep := hrun fuel hfuel notes
  rw [List.append_assoc, List.append_assoc, List.singleton_append, List.singleton_append] at hstep
  exact (bind_run (advance_run before t rest)).trans hstep

/-- At the end the cursor stays where it is. -/
theorem advance_end {f : Nat → Mark → Machine α}
    (h : Mirrors stop before [] d d' (fun fuel => f fuel ⟨none, stop⟩) x) :
    Mirrors stop before [] d d' (fun fuel => Cursor.advance >>= f fuel) x :=
  h.after fun _ _ => bind_run (bind_run (peek_run before []))

theorem reportAt (p : Position) (problem : Problem) :
    Mirrors stop before rest d d (fun _ => Cursor.reportAt p problem)
      (Parser.reportAt p problem) := by
  refine ⟨[], 0, rfl, fun _ _ notes => ?_⟩
  rw [List.append_nil]
  rfl

theorem report (problem : Problem) :
    Mirrors stop before rest d d
      (fun _ => Cursor.reportAt (ahead stop rest).position problem) (Parser.report problem) :=
  position (reportAt _ problem)

/-- After a report the cursor is where it was. -/
theorem report_bind {f : Nat → Unit → Machine β} {g : Unit → Parser β} (problem : Problem)
    (h : Mirrors stop before rest d d' (fun fuel => f fuel ()) (g ())) :
    Mirrors stop before rest d d'
      (fun fuel => Cursor.reportAt (ahead stop rest).position problem >>= f fuel)
      (Parser.report problem >>= g) := by
  obtain ⟨ts, enough, hrest, hrun⟩ := h
  have hreport : (Parser.report problem >>= g) stop rest =
      ⟨(g () stop rest).value,
        problem.report (ahead stop rest).position :: (g () stop rest).notes⟩ := by
    rw [Parser.bind_apply, Parser.report_apply]
    rfl
  unfold Mirrors
  rw [hreport]
  refine ⟨ts, enough, hrest, fun fuel hfuel notes => ?_⟩
  have hstep := hrun fuel hfuel (notes ++ [problem.report (ahead stop rest).position])
  rw [List.append_assoc] at hstep
  exact hstep

theorem eat (wanted : Token) :
    Mirrors stop before rest d d (fun _ => Cursor.eat wanted) (Parser.eat wanted) := by
  refine look (peek ?_)
  by_cases hhead : rest.head?.map PlacedToken.token = some wanted
  · obtain ⟨p, htokens⟩ := Parser.head_token hhead
    have hahead : (ahead stop rest).token = some wanted := hhead
    rw [if_pos hhead]
    simp only [if_pos hahead]
    rw [htokens]
    exact advance (pure true)
  · have hahead : (ahead stop rest).token ≠ some wanted := hhead
    rw [if_neg hhead]
    simp only [if_neg hahead]
    exact pure false

theorem expect (wanted : Token) :
    Mirrors stop before rest d d (fun _ => Cursor.expect wanted) (Parser.expect wanted) := by
  refine bind (eat wanted) fun ts _ => ?_
  cases (Parser.eat wanted stop rest).value.1 with
  | true => exact pure ()
  | false => exact look (peek (report _))

theorem unexpected (what : Expected) :
    Mirrors stop before rest d d (fun _ => Cursor.unexpected what)
      (Parser.report (.expected what (rest.head?.map PlacedToken.token))) :=
  look (report _)

/-- Where the wrong token is ahead, it is left there. -/
theorem missing (rest : List PlacedToken) (what : Expected) (a : β) :
    Mirrors stop before rest d d (fun _ => do Cursor.unexpected what; return a)
      (do Parser.report (.expected what (rest.head?.map PlacedToken.token)); return a) :=
  (unexpected what).bind fun _ _ => pure a

end Mirrors

/-! ## The parts -/

section Parts

variable {stop : Position} {before rest : List PlacedToken} {d : Nat}

theorem name_mirrors : Mirrors stop before rest d d (fun _ => name) Tree.name := by
  have hsame : name = (do
      match (← peek).token with
      | some (.identifier name) =>
        let _ ← advance
        return String.ofList name
      | _ =>
        unexpected .identifier
        return "") := by
    unfold name identifier
    simp only [bind_assoc]
    congr 1
    funext mark
    split <;> simp
  rw [hsame]
  refine Mirrors.look (Mirrors.peek ?_)
  rcases rest with _ | ⟨⟨token, p⟩, rest⟩
  · exact Mirrors.missing [] _ _
  · cases token with
    | identifier word => exact Mirrors.advance (Mirrors.pure _)
    | _ => exact Mirrors.missing (_ :: _) _ _

theorem key_mirrors : Mirrors stop before rest d d (fun _ => key) Tree.key := by
  refine Mirrors.look (Mirrors.peek ?_)
  rcases rest with _ | ⟨⟨token, p⟩, rest⟩
  · exact Mirrors.missing [] _ _
  cases token with
  | identifier word => exact Mirrors.advance (Mirrors.pure _)
  | integer n =>
    dsimp only [ahead, List.head?_cons, Option.map_some]
    split
    · exact Mirrors.advance (Mirrors.pure _)
    -- the machine moves on first and notes the sign then
    · refine Mirrors.congr (y := do Parser.skip; Parser.reportAt p (.signedKey n); return none)
        rfl ?_
      exact Mirrors.advance ((Mirrors.reportAt p _).bind fun _ _ => Mirrors.pure none)
  | _ => exact Mirrors.missing (_ :: _) _ _

theorem leaf_mirrors :
    Mirrors stop before rest d d (fun _ => leaf (ahead stop rest)) Tree.scalar := by
  refine Mirrors.peek ?_
  rcases rest with _ | ⟨⟨token, p⟩, rest⟩
  · exact Mirrors.missing [] _ _
  cases token with
  | integer n =>
    unfold leaf
    dsimp only [ahead, List.head?_cons, Option.map_some]
    cases n.toInt64? with
    | some i => exact Mirrors.advance (Mirrors.pure _)
    | none => exact Mirrors.report_bind _ (Mirrors.advance (Mirrors.pure _))
  | float n => exact Mirrors.advance (Mirrors.pure _)
  | string content => exact Mirrors.advance (Mirrors.pure _)
  | bool b => exact Mirrors.advance (Mirrors.pure _)
  | null => exact Mirrors.advance (Mirrors.pure _)
  | _ => exact Mirrors.missing (_ :: _) _ _

/-- Skipping a token goes on with what dropping it leaves. -/
theorem skip_step {t : PlacedToken} {count : Nat} (drop : List PlacedToken → List PlacedToken)
    (hdrop : dropBalanced count (t :: rest) = drop rest)
    (h : Mirrors stop (before ++ [t]) rest d d
      (fun fuel => if opens t.token then skipNested fuel (count + 1)
        else if closes t.token then do
          let left ← countDown count
          if left = 0 then
            return
          skipNested fuel left
        else skipNested fuel count)
      (modify drop)) :
    Mirrors stop before (t :: rest) d d (fun fuel => skipNested fuel count)
      (modify (dropBalanced count)) := by
  refine Mirrors.call (fun _ => rfl) ?_
  refine Mirrors.congr (y := do Parser.skip; modify drop) ?_ ?_
  · show Noted.mk ((), dropBalanced count (t :: rest)) [] = _
    rw [hdrop]
    rfl
  · exact Mirrors.index (Mirrors.advance (Mirrors.moved (by simp) h))

/-- A bracket that opens counts one more. -/
theorem skip_opens {t : PlacedToken} {count : Nat} (hopens : opens t.token = true)
    (h : Mirrors stop (before ++ [t]) rest d d (fun fuel => skipNested fuel (count + 1))
      (modify (dropBalanced (count + 1)))) :
    Mirrors stop before (t :: rest) d d (fun fuel => skipNested fuel count)
      (modify (dropBalanced count)) := by
  refine skip_step (dropBalanced (count + 1)) (by rw [dropBalanced, if_pos hopens]) ?_
  simp only [if_pos hopens]
  exact h

/-- **Skipping comes to an end**, and what is open is never counted down from zero. -/
theorem skip_mirrors (count : Nat) :
    Mirrors stop before rest d d (fun fuel => skipNested fuel (count + 1))
      (modify (dropBalanced (count + 1))) := by
  induction rest generalizing before count with
  | nil =>
    refine Mirrors.call (fun _ => rfl) ?_
    exact Mirrors.index (Mirrors.advance_end (Mirrors.pure ()))
  | cons t rest ih =>
    by_cases hopens : opens t.token = true
    · exact skip_opens hopens (ih (count + 1))
    by_cases hcloses : closes t.token = true
    · cases count with
      -- the bracket that closes the first one ends it
      | zero =>
        refine skip_step id
          (by rw [dropBalanced, if_neg hopens, if_pos hcloses, if_pos (Nat.le_refl 1)]; rfl) ?_
        simp only [if_neg hopens, if_pos hcloses]
        exact Mirrors.pure ()
      | succ count =>
        refine skip_step (dropBalanced (count + 1))
          (by rw [dropBalanced, if_neg hopens, if_pos hcloses, if_neg (by omega)]; rfl) ?_
        simp only [if_neg hopens, if_pos hcloses]
        exact ih count
    · refine skip_step (dropBalanced (count + 1))
        (by rw [dropBalanced, if_neg hopens, if_neg hcloses]) ?_
      simp only [if_neg hopens, if_neg hcloses]
      exact ih count

-- where the first bracket closes, the count would fall below zero
example : skipNested 1 0 (marks .start [⟨.closeParen, .start⟩]) ⟨0, 0, []⟩ =
    some (.error .belowZero) := rfl

/-- **A loop mirrors a loop** if its turns mirror turns that take a token. -/
theorem loop_mirrors {starts : Token → Bool} {turn : Nat → Machine α} {x : Parser α}
    (hturn : ∀ before rest, Mirrors stop before rest d d turn x)
    (htakes : ∀ tokens : List PlacedToken, tokens.head?.any (fun t => starts t.token) = true →
      (x stop tokens).value.2.length < tokens.length)
    (before rest : List PlacedToken) :
    Mirrors stop before rest d d (fun fuel => loop starts (turn fuel) fuel)
      (Parser.many starts x) := by
  induction hlength : rest.length using Nat.strong_induction_on generalizing turn before rest with
  | _ length ih =>
    subst hlength
    have hahead : (ahead stop rest).token.any starts =
        rest.head?.any (fun t => starts t.token) := by
      cases rest <;> rfl
    refine Mirrors.call (fun _ => rfl) (Mirrors.look ?_)
    rw [hahead]
    by_cases hstart : rest.head?.any (fun t => starts t.token) = true
    · have hshort := htakes rest hstart
      -- where the loop goes on, its turns have one unit of fuel more than itself
      have hagain := fun before rest => (hturn before rest).more
      simp only [if_pos hstart]
      refine Mirrors.congr (Parser.many_turn hstart hshort) ?_
      refine Mirrors.index ((hagain before rest).bind fun ts hrest => ?_)
      -- the turn has taken something, so the cursor has moved on
      have hmoved : before.length < (before ++ ts).length := by
        have hlength := congrArg List.length hrest
        rw [List.length_append] at hlength ⊢
        omega
      exact Mirrors.moved hmoved
        ((ih _ hshort hagain _ _ rfl).bind fun _ _ => Mirrors.pure _)
    · simp only [if_neg hstart]
      refine Mirrors.congr (y := pure []) ?_ (Mirrors.pure [])
      rw [Parser.many, if_neg hstart]
      rfl

end Parts

/-! ## Values and texts -/

section Values

variable {stop : Position} {d : Nat} {v : Nat → Machine Tree} {read : Parser Tree} {levels : Nat}
  (hread : ReadsAll stop read levels)
  (hvalue : ∀ before rest, Mirrors stop before rest d d v read)
include hvalue

theorem entry_mirrors (before rest : List PlacedToken) :
    Mirrors stop before rest d d (fun fuel => entry (v fuel)) (Tree.entry read) := by
  refine Mirrors.look (Mirrors.position ((Mirrors.eat _).bind fun ts _ => ?_))
  cases (Parser.eat .colon stop rest).value.1 with
  | true => exact key_mirrors.bind fun _ _ => (hvalue _ _).bind fun _ _ => Mirrors.pure _
  | false => exact (Mirrors.pure none).bind fun _ _ => (hvalue _ _).bind fun _ _ => Mirrors.pure _

include hread

theorem entries_mirrors (before rest : List PlacedToken) :
    Mirrors stop before rest d d (fun fuel => entries fuel (v fuel)) (Tree.entries read) := by
  refine loop_mirrors (fun before rest => ?_) ?_ before rest
  · exact (entry_mirrors hvalue before rest).bind fun _ _ =>
      (Mirrors.eat _).bind fun _ _ => Mirrors.pure _
  · exact fun _ hstart => ((Tree.separatedEntry_takes hread hstart).mono fun _ _ h => h.1).shorter

theorem items_mirrors (before rest : List PlacedToken) :
    Mirrors stop before rest d d (fun fuel => items fuel (v fuel)) (Tree.items read) := by
  refine loop_mirrors (fun before rest => ?_) ?_ before rest
  · refine (entry_mirrors hvalue before rest).bind fun _ _ => ?_
    cases (Tree.entry read stop rest).value.1.key with
    | some key =>
      exact (Mirrors.reportAt _ _).bind fun _ _ => (Mirrors.eat _).bind fun _ _ => Mirrors.pure _
    | none => exact (Mirrors.eat _).bind fun _ _ => Mirrors.pure _
  · exact fun _ hstart => ((Tree.separatedItem_takes hread hstart).mono fun _ _ h => h.1).shorter

theorem groupForm_mirrors (p : Position) (before rest : List PlacedToken) :
    Mirrors stop before rest d d (fun fuel => groupForm fuel (v fuel) p)
      (Tree.groupForm read p) :=
  name_mirrors.bind fun _ _ => (Mirrors.eat _).bind fun _ _ =>
    (entries_mirrors hread hvalue _ _).bind fun _ _ => Mirrors.pure _

theorem expressionForm_mirrors (p : Position) (before rest : List PlacedToken) :
    Mirrors stop before rest d d (fun fuel => expressionForm fuel (v fuel) p)
      (Tree.expressionForm read p) :=
  name_mirrors.bind fun _ _ => (entries_mirrors hread hvalue _ _).bind fun _ _ => Mirrors.pure _

end Values

/-- A level is opened, and closed again. -/
theorem nested_mirrors {stop : Position} {before rest : List PlacedToken} {t : PlacedToken}
    {d : Nat} {v : Nat → Machine Tree} {x : Parser Tree} (hd : d < maxDepth)
    (h : Mirrors stop (before ++ [t]) rest (d + 1) (d + 1)
      (fun fuel => inside fuel (v fuel) (.ofToken t)) x) :
    Mirrors stop before (t :: rest) d d (fun fuel => nested fuel (v fuel) (.ofToken t))
      (do Parser.skip; x) := by
  refine Mirrors.depth ?_
  simp only [if_neg (Nat.not_le_of_lt hd)]
  exact Mirrors.descend hd (Mirrors.advance (Mirrors.ascend h))

/-- Where no more levels may be opened, all up to the bracket that closes is skipped. -/
theorem nested_mirrors_tooDeep {stop : Position} {before rest : List PlacedToken}
    {v : Nat → Machine Tree} (hopens : (rest.head?.map PlacedToken.token).any opens = true) :
    Mirrors stop before rest maxDepth maxDepth
      (fun fuel => nested fuel (v fuel) (ahead stop rest))
      (do Parser.report .tooDeep; modify (dropBalanced 0); return .invalid) := by
  refine Mirrors.depth ?_
  simp only [if_pos (Nat.le_refl maxDepth)]
  refine Mirrors.report_bind _ ?_
  rcases rest with _ | ⟨t, rest⟩
  · cases hopens
  · exact (skip_opens hopens (skip_mirrors 0)).bind fun _ _ => Mirrors.pure _

/-- **Values**: what is open and what is left add up to the limit. -/
theorem value_mirrors (stop : Position) {d levels : Nat} (hd : d + levels = maxDepth)
    (before rest : List PlacedToken) :
    Mirrors stop before rest d d value (Tree.value levels) := by
  induction levels generalizing d before rest with
  | zero =>
    -- no level is left, so all that are allowed are open
    obtain rfl : d = maxDepth := hd
    refine Mirrors.call (fun _ => rfl) (Mirrors.look (Mirrors.peek ?_))
    by_cases hopens : (rest.head?.map PlacedToken.token).any opens = true
    · have hahead : (ahead stop rest).token.any opens = true := hopens
      simp only [if_pos hahead, if_pos hopens]
      exact nested_mirrors_tooDeep hopens
    · have hahead : ¬(ahead stop rest).token.any opens = true := hopens
      simp only [if_neg hahead, if_neg hopens]
      exact leaf_mirrors
  | succ levels ih =>
    have hread := Tree.value_takes stop levels
    have hinner := fun before rest => ih (d := d + 1) (by omega) before rest
    refine Mirrors.call (fun _ => rfl) (Mirrors.look (Mirrors.position (Mirrors.peek ?_)))
    rcases rest with _ | ⟨⟨token, p⟩, rest⟩
    · exact leaf_mirrors
    cases token with
    | openParen =>
      refine nested_mirrors (by omega) ?_
      exact (groupForm_mirrors hread hinner p _ _).bind fun _ _ =>
        (Mirrors.expect _).bind fun _ _ => Mirrors.pure _
    | openBracket =>
      refine nested_mirrors (by omega) ?_
      exact (items_mirrors hread hinner _ _).bind fun _ _ =>
        (Mirrors.expect _).bind fun _ _ => Mirrors.pure _
    | openExpression =>
      refine nested_mirrors (by omega) ?_
      exact (expressionForm_mirrors hread hinner p _ _).bind fun _ _ =>
        (Mirrors.expect _).bind fun _ _ => Mirrors.pure _
    | _ => exact leaf_mirrors

/-- **Texts**: no level is open between two groups. -/
theorem groups_mirrors (stop : Position) (before rest : List PlacedToken) :
    Mirrors stop before rest 0 0 groups Tree.tops := by
  induction hlength : rest.length using Nat.strong_induction_on generalizing before rest with
  | _ length ih =>
    subst hlength
    refine Mirrors.call (fun _ => rfl) (Mirrors.index ?_)
    rcases rest with _ | ⟨⟨token, p⟩, rest⟩
    · refine Mirrors.advance_end (Mirrors.congr (y := pure []) ?_ (Mirrors.pure []))
      rw [Tree.tops_apply, Parser.many]
      rfl
    by_cases hparen : token = .openParen
    · subst hparen
      refine Mirrors.congr (Tree.tops_group stop p rest) ?_
      refine Mirrors.advance ((groupForm_mirrors (Tree.value_takes stop maxDepth)
        (value_mirrors stop (Nat.zero_add _)) p _ _).bind fun ts hts => ?_)
      -- the group has closed all levels that it has opened
      refine (Mirrors.expect _).bind fun us hus => Mirrors.level (Mirrors.moved (by simp) ?_)
      refine (ih _ ?_ _ _ rfl).bind fun _ _ => Mirrors.pure _
      have hlength := congrArg List.length (hts.trans (congrArg (ts ++ ·) hus))
      simp only [List.length_append] at hlength
      rw [List.length_cons]
      omega
    · have hstray : Mirrors stop (before ++ [⟨token, p⟩]) rest 0 0
          (fun fuel => do reportAt p (.outside token); moved before.length; groups fuel)
          (do Parser.reportAt p (.outside token); Tree.tops) :=
        (Mirrors.reportAt p _).bind fun _ _ =>
          Mirrors.moved (by simp) (ih rest.length (by simp) _ _ rfl)
      refine Mirrors.congr (Tree.tops_stray hparen rest) (Mirrors.advance ?_)
      cases token <;> first | exact absurd rfl hparen | exact hstray

end DataLisp.Cursor

namespace DataLisp

/-- **A cursor never goes wrong.** On the tokens of any text and the mark for its end the machine
comes to an end without a fault as soon as its fuel is enough: it reads no mark behind the end,
counts nothing down from zero, has never more levels open than allowed and none after a top-level
group, and every turn of its loops takes a token. The cursor is then at the end of the text, and
what the machine has read and noted is what parsing the text gives. No form that is read nests
deeper than allowed. -/
theorem Parsed.cursor_total (text : String) :
    let scanned := Token.scan text
    let parsed := Parsed.ofText text
    (∃ enough, ∀ fuel ≥ enough,
      Cursor.groups fuel (Cursor.marks scanned.stop scanned.tokens) ⟨0, 0, scanned.problems⟩ =
        some (.ok (parsed.forms, ⟨scanned.tokens.length, 0, parsed.diagnostics⟩))) ∧
    ∀ form ∈ parsed.forms, form.depth ≤ Tree.maxDepth := by
  intro scanned parsed
  obtain ⟨hrest, -, hdepths⟩ := Tree.tops_takes scanned.stop scanned.tokens
  obtain ⟨ts, enough, htokens, hrun⟩ := Cursor.groups_mirrors scanned.stop [] scanned.tokens
  rw [hrest, List.append_nil] at htokens
  refine ⟨⟨enough, fun fuel hfuel => ?_⟩, hdepths⟩
  have hgroups := hrun fuel hfuel scanned.problems
  rw [← htokens] at hgroups
  exact hgroups

end DataLisp
