/-
JSON text is read as the value that it was written for.

A value is written as a node (`Json.toNode`), the text by its grammar. The argument goes in
three steps. Every node is read from its tokens: whatever is open around it, the machine that
starts where a value is expected ends after that node (`Node.foldlM_tokens`). The tokens of a
layout are those of the node, in both layouts, and the layout is readable, so the scanner finds
them (`ofText?_text_node`). And the node of a value whose floats are finite and whose objects have
distinct names is decoded if it is not too deep, and refused if it is (`decode?_toNode`); what is
decoded is the value itself, so far as its floats are read back exactly. Nothing else is ever
decoded (`isDecoded_decode?`).
-/
import DataLisp.Proofs.JsonNumbers
import DataLisp.Proofs.JsonSpelling
import DataLisp.Proofs.OrderedMaps

set_option autoImplicit false

namespace DataLisp

/-! ## What is recovered -/

/-- What a reader recovers of something from what was written for it: anything exactly if it fits,
and the same again where the reader is precise. -/
structure Recovers {α : Type} (found : Option α) (a : α) (precise fits : Prop) : Prop where
  isSome_iff : found.isSome = true ↔ fits
  eq_of_precise : precise → ∀ b, found = some b → b = a

namespace Recovers

variable {α β γ : Type} {found : Option α} {a : α} {b : β} {precise precise' fits fits' : Prop}

/-- Whether anything is found does not depend on how precise it is. -/
theorem exists_iff (h : Recovers found a precise fits) : (∃ b, found = some b) ↔ fits := by
  rw [← h.isSome_iff, Option.isSome_iff_exists]

theorem eq_some (h : Recovers found a precise fits) (hprecise : precise) (hfits : fits) :
    found = some a := by
  obtain ⟨b, hb⟩ := h.exists_iff.mpr hfits
  rw [hb, h.eq_of_precise hprecise b hb]

theorem eq_none (h : Recovers found a precise fits) (hfits : ¬fits) : found = none := by
  rwa [← h.isSome_iff, Option.not_isSome_iff_eq_none] at hfits

/-- What says everything of itself. -/
theorem self (a : α) (hfits : fits) : Recovers (some a) a precise fits :=
  ⟨iff_of_true rfl hfits, fun _ _ hb => (Option.some.inj hb).symm⟩

/-- What does not fit. -/
theorem refused (a : α) (hfits : ¬fits) : Recovers none a precise fits :=
  ⟨iff_of_false Bool.false_ne_true hfits, nofun⟩

/-- The conditions may be put in other words, and more may be asked of the reader. -/
theorem imp (h : Recovers found a precise fits) (hprecise : precise' → precise)
    (hfits : fits ↔ fits') : Recovers found a precise' fits' :=
  ⟨h.isSome_iff.trans hfits, fun he => h.eq_of_precise (hprecise he)⟩

/-- What is found may be changed, by the same function on both sides. -/
theorem map (h : Recovers found a precise fits) (f : α → β) :
    Recovers (found.map f) (f a) precise fits := by
  refine ⟨?_, ?_⟩
  · rw [Option.isSome_map]
    exact h.isSome_iff
  · intro hprecise b hb
    obtain ⟨a', ha', rfl⟩ := Option.map_eq_some_iff.mp hb
    rw [h.eq_of_precise hprecise a' ha']

/-- Two parts of which both are needed. -/
theorem both {found' : Option β} (h : Recovers found a precise fits)
    (h' : Recovers found' b precise' fits') (f : α → β → γ) :
    Recovers (found.bind fun a => found'.map (f a)) (f a b) (precise ∧ precise')
      (fits ∧ fits') := by
  refine ⟨?_, ?_⟩
  · rw [← h.isSome_iff, ← h'.isSome_iff]
    cases found with
    | none => simp
    | some a => simp
  · rintro ⟨hprecise, hprecise'⟩ c hc
    obtain ⟨a', ha', hc⟩ := Option.bind_eq_some_iff.mp hc
    obtain ⟨b', hb', rfl⟩ := Option.map_eq_some_iff.mp hc
    rw [h.eq_of_precise hprecise a' ha', h'.eq_of_precise hprecise' b' hb']

/-- **A list is recovered item by item.** -/
theorem mapM {read : β → Option α} {write : α → β} {precise fits : α → Prop} {as : List α}
    (h : ∀ a ∈ as, Recovers (read (write a)) a (precise a) (fits a)) :
    Recovers ((as.map write).mapM read) as (∀ a ∈ as, precise a) (∀ a ∈ as, fits a) := by
  induction as with
  | nil => exact self [] (by simp)
  | cons a as ih =>
    rw [List.forall_mem_cons] at h
    have hboth := h.1.both (ih h.2) List.cons
    have hcons : ((a :: as).map write).mapM read =
        (read (write a)).bind fun a => ((as.map write).mapM read).map (List.cons a) := by
      rw [List.map_cons, List.mapM_cons]
      cases read (write a) <;> cases (as.map write).mapM read <;> rfl
    rw [hcons]
    exact hboth.imp List.forall_mem_cons.mp List.forall_mem_cons.symm

end Recovers

/-- What is read from a list has a property if all has that is read from the parts of it. -/
theorem forall_mapM {α β : Type} {read : α → Option β} {P : β → Prop} {as : List α} {bs : List β}
    (hread : ∀ a ∈ as, ∀ b, read a = some b → P b) (h : as.mapM read = some bs) :
    ∀ b ∈ bs, P b := by
  induction as generalizing bs with
  | nil =>
    cases h
    simp
  | cons a as ih =>
    rw [List.forall_mem_cons] at hread
    simp only [List.mapM_cons, Option.bind_eq_bind, Option.bind_eq_some_iff, Option.pure_def,
      Option.some.injEq] at h
    obtain ⟨b, hb, more, hmore, rfl⟩ := h
    exact List.forall_mem_cons.mpr ⟨hread.1 b hb, ih hread.2 hmore⟩

namespace Json

/-! ## Tokens of nodes -/

/-- Induction over a node: items and members come first. -/
@[elab_as_elim]
theorem Node.induction {motive : Node → Prop} (null : motive .null) (bool : ∀ b, motive (.bool b))
    (number : ∀ n, motive (.number n)) (string : ∀ parts, motive (.string parts))
    (array : ∀ items, (∀ node ∈ items, motive node) → motive (.array items))
    (object : ∀ members, (∀ member ∈ members, motive member.2) → motive (.object members))
    (node : Node) : motive node :=
  @Node.rec motive (fun items => ∀ node ∈ items, motive node)
    (fun members => ∀ member ∈ members, motive member.2) (fun member => motive member.2)
    null bool number string array object
    (by simp) (fun _ _ hnode hrest => List.forall_mem_cons.mpr ⟨hnode, hrest⟩)
    (by simp) (fun _ _ hmember hrest => List.forall_mem_cons.mpr ⟨hmember, hrest⟩)
    (fun _ _ hnode => hnode) node

mutual

/-- The tokens that write a node. -/
def Node.tokens : Node → List Token
  | .null => [.null]
  | .bool b => [.bool b]
  | .number n => [.number n]
  | .string parts => [.string parts]
  | .array items => .openBracket :: (Nodes.tokens items ++ [.closeBracket])
  | .object members => .openBrace :: (NamedNodes.tokens members ++ [.closeBrace])

/-- The tokens that write the items of an array: a comma after each but the last. -/
def Nodes.tokens : List Node → List Token
  | [] => []
  | node :: rest => node.tokens ++ ((if rest.isEmpty then [] else [.comma]) ++ Nodes.tokens rest)

/-- The tokens that write the members of an object. -/
def NamedNodes.tokens : List (List Part × Node) → List Token
  | [] => []
  | (name, node) :: rest =>
    .string name :: .colon ::
      (node.tokens ++ ((if rest.isEmpty then [] else [.comma]) ++ NamedNodes.tokens rest))

end

/-- A node does not start with the end of an array. -/
theorem Node.tokens_starts (node : Node) : ∃ t ts, node.tokens = t :: ts ∧ t ≠ .closeBracket := by
  cases node <;> exact ⟨_, _, by rw [tokens], by simp⟩

namespace Node

/-- The machine reads a node where a value is expected, whatever is open around it. -/
def IsRead (node : Node) : Prop :=
  ∀ frames, node.tokens.foldlM step ⟨.value, frames⟩ = some ⟨.after node, frames⟩

/-- In an array that has just been opened, a node is read as after a comma. -/
theorem foldlM_firstItem (node : Node) (more : List Token) (frames : List Frame) :
    (node.tokens ++ more).foldlM step ⟨.firstItem, frames⟩ =
      (node.tokens ++ more).foldlM step ⟨.value, .array [] :: frames⟩ := by
  obtain ⟨t, ts, htokens, hne⟩ := node.tokens_starts
  have hstep : step ⟨.firstItem, frames⟩ t = beginValue (.array [] :: frames) t := by
    cases t with
    | closeBracket => exact absurd rfl hne
    | openBrace | closeBrace | openBracket | comma | colon | null | bool _ | number _ | string _ =>
      rfl
  rw [htokens, List.cons_append, List.foldlM_cons, List.foldlM_cons, hstep]
  rfl

/-- The rest of an array, from one of its items on. -/
theorem foldlM_items {items : List Node} (hne : items ≠ []) (hitems : ∀ node ∈ items, node.IsRead)
    (before : List Node) (frames : List Frame) :
    (Nodes.tokens items ++ [Token.closeBracket]).foldlM step ⟨.value, .array before :: frames⟩ =
      some ⟨.after (.array (before.reverse ++ items)), frames⟩ := by
  induction items generalizing before with
  | nil => exact absurd rfl hne
  | cons node rest ih =>
    rw [List.forall_mem_cons] at hitems
    rw [Nodes.tokens, List.append_assoc, List.foldlM_append, hitems.1]
    cases rest with
    | nil =>
      simp only [Nodes.tokens, List.isEmpty_nil, if_true, List.append_nil, List.nil_append]
      show some (State.mk (.after (.array (node :: before).reverse)) frames) = _
      rw [List.reverse_cons]
    | cons second rest =>
      have hrest := ih (by simp) hitems.2 (node :: before)
      rw [List.reverse_cons, List.append_assoc, List.singleton_append] at hrest
      exact hrest

/-- The rest of an object, from the name of one of its members on. -/
theorem foldlM_members {members : List (List Part × Node)} (hne : members ≠ [])
    (hmembers : ∀ member ∈ members, member.2.IsRead) (before : List (List Part × Node))
    (frames : List Frame) :
    (NamedNodes.tokens members ++ [Token.closeBrace]).foldlM step ⟨.name before, frames⟩ =
      some ⟨.after (.object (before.reverse ++ members)), frames⟩ := by
  induction members generalizing before with
  | nil => exact absurd rfl hne
  | cons member rest ih =>
    obtain ⟨name, node⟩ := member
    rw [List.forall_mem_cons] at hmembers
    rw [NamedNodes.tokens, List.cons_append, List.cons_append, List.append_assoc]
    -- the name and the colon lead to where the value is expected
    show (node.tokens ++ _).foldlM step ⟨.value, .object before name :: frames⟩ = _
    rw [List.foldlM_append, hmembers.1]
    cases rest with
    | nil =>
      simp only [NamedNodes.tokens, List.isEmpty_nil, if_true, List.append_nil, List.nil_append]
      show some (State.mk (.after (.object ((name, node) :: before).reverse)) frames) = _
      rw [List.reverse_cons]
    | cons second rest =>
      have hrest := ih (by simp) hmembers.2 ((name, node) :: before)
      rw [List.reverse_cons, List.append_assoc, List.singleton_append] at hrest
      exact hrest

/-- **Every node is read from its tokens.** -/
theorem foldlM_tokens (node : Node) : node.IsRead := by
  induction node using Node.induction with
  | null | bool b | number n | string parts => exact fun frames => rfl
  | array items ih =>
    intro frames
    rw [tokens]
    show (Nodes.tokens items ++ [Token.closeBracket]).foldlM step ⟨.firstItem, frames⟩ = _
    cases items with
    | nil => rfl
    | cons node rest =>
      have hread := foldlM_items (by simp) ih [] frames
      rw [Nodes.tokens, List.append_assoc] at hread ⊢
      rw [foldlM_firstItem, hread]
      rfl
  | object members ih =>
    intro frames
    rw [tokens]
    show (NamedNodes.tokens members ++ [Token.closeBrace]).foldlM step ⟨.firstName, frames⟩ = _
    cases members with
    | nil => rfl
    -- a first name is read as one after a comma
    | cons member rest => exact foldlM_members (by simp) ih [] frames

/-- Nodes are found again in their tokens. -/
theorem ofTokens?_tokens (node : Node) : ofTokens? node.tokens = some node := by
  rw [ofTokens?, State.start, foldlM_tokens]
  rfl

end Node

/-! ## Nodes of values -/

/-- Induction over a value: items and members come first. -/
@[elab_as_elim]
theorem induction {motive : Json → Prop} (null : motive .null) (bool : ∀ b, motive (.bool b))
    (integer : ∀ i, motive (.integer i)) (float : ∀ x, motive (.float x))
    (string : ∀ s, motive (.string s))
    (array : ∀ items, (∀ v ∈ items, motive v) → motive (.array items))
    (object : ∀ members, (∀ member ∈ members, motive member.2) → motive (.object members))
    (v : Json) : motive v :=
  @Json.rec motive (fun items => ∀ v ∈ items, motive v)
    (fun members => ∀ member ∈ members, motive member.2) (fun member => motive member.2)
    null bool integer float string array object
    (by simp) (fun _ _ hv hrest => List.forall_mem_cons.mpr ⟨hv, hrest⟩)
    (by simp) (fun _ _ hmember hrest => List.forall_mem_cons.mpr ⟨hmember, hrest⟩)
    (fun _ _ hv => hv) v

mutual

/-- The node that a value is written as. -/
def toNode : Json → Node
  | .null => .null
  | .bool b => .bool b
  | .integer i => .number (Numeral.ofInt64 i)
  | .float x => if x.isFinite then .number (Notation.json.numeral x) else .null
  | .string s => .string (s.toList.map Part.ofChar)
  | .array items => .array (itemNodes items)
  | .object members => .object (memberNodes members)

/-- The nodes of the items of an array. -/
def itemNodes : List Json → List Node
  | [] => []
  | v :: rest => v.toNode :: itemNodes rest

/-- The nodes of the members of an object. -/
def memberNodes : List (String × Json) → List (List Part × Node)
  | [] => []
  | (name, v) :: rest => (name.toList.map Part.ofChar, v.toNode) :: memberNodes rest

end

/-! ## Layouts -/

section Layout

variable (layout : Layout) (depth : Nat)

theorem itemPieces_eq (items : List Json) :
    itemPieces layout depth items = items.map (pieces layout depth) := by
  induction items with
  | nil => rfl
  | cons v rest ih => rw [itemPieces, List.map_cons, ih]

/-- The pieces of a member: its name, a colon, and its value. -/
def memberLine (member : String × Json) : List (Piece Token) :=
  .token (.ofString member.1) :: (layout.colon ++ pieces layout depth member.2)

theorem memberPieces_eq (members : List (String × Json)) :
    memberPieces layout depth members = members.map (memberLine layout depth) := by
  induction members with
  | nil => rfl
  | cons member rest ih => rw [memberPieces, List.map_cons, ih, memberLine]

/-- The layout adds no token. -/
theorem filterMap_lineBreak : (layout.lineBreak depth).filterMap Piece.token? = [] := by
  cases layout <;> rfl

theorem filterMap_colon : layout.colon.filterMap Piece.token? = [.colon] := by
  cases layout <;> rfl

/-- Brackets around items add no token but themselves and the commas. -/
theorem filterMap_enclose (opening closing : Token) (items : List (List (Piece Token))) :
    (layout.enclose depth opening closing items).filterMap Piece.token? =
      opening :: ((Piece.separated (.token .comma :: layout.lineBreak (depth + 1))
        items).filterMap Piece.token? ++ [closing]) := by
  cases items with
  | nil => rfl
  | cons item rest =>
    rw [Layout.enclose, if_neg (by simp), List.filterMap_cons_some (f := Piece.token?) rfl,
      List.filterMap_append, filterMap_lineBreak, List.nil_append, List.filterMap_append,
      List.filterMap_append, filterMap_lineBreak]
    rfl

variable {layout depth}

/-- The items of an array are separated by commas, in either layout. -/
theorem filterMap_items {items : List Json} (h : ∀ v ∈ items,
      (v.pieces layout depth).filterMap Piece.token? = v.toNode.tokens) (level : Nat) :
    (Piece.separated (.token .comma :: layout.lineBreak level)
      (items.map (pieces layout depth))).filterMap Piece.token? =
        Nodes.tokens (itemNodes items) := by
  induction items with
  | nil => rfl
  | cons v rest ih =>
    rw [List.forall_mem_cons] at h
    cases rest with
    | nil =>
      rw [List.map_cons, List.map_nil, Piece.separated, h.1]
      simp [itemNodes, Nodes.tokens]
    | cons second rest =>
      rw [List.map_cons] at ih
      rw [List.map_cons, List.map_cons, Piece.separated, List.filterMap_append,
        List.filterMap_append, ih h.2, h.1, List.filterMap_cons_some (f := Piece.token?) rfl,
        filterMap_lineBreak]
      · simp [itemNodes, Nodes.tokens]
      · simp

/-- So are the members of an object, each a name and a value. -/
theorem filterMap_members {members : List (String × Json)} (h : ∀ member ∈ members,
      (member.2.pieces layout depth).filterMap Piece.token? = member.2.toNode.tokens)
    (level : Nat) :
    (Piece.separated (.token .comma :: layout.lineBreak level)
      (members.map (memberLine layout depth))).filterMap Piece.token? =
        NamedNodes.tokens (memberNodes members) := by
  have hline : ∀ member ∈ members, (memberLine layout depth member).filterMap Piece.token? =
      .ofString member.1 :: .colon :: member.2.toNode.tokens := by
    intro member hmember
    rw [memberLine, List.filterMap_cons_some (f := Piece.token?) rfl, List.filterMap_append,
      filterMap_colon, h member hmember]
    rfl
  clear h
  induction members with
  | nil => rfl
  | cons member rest ih =>
    rw [List.forall_mem_cons] at hline
    cases rest with
    | nil =>
      rw [List.map_cons, List.map_nil, Piece.separated, hline.1]
      simp [memberNodes, NamedNodes.tokens, Token.ofString]
    | cons second rest =>
      rw [List.map_cons] at ih
      rw [List.map_cons, List.map_cons, Piece.separated, List.filterMap_append,
        List.filterMap_append, ih hline.2, hline.1,
        List.filterMap_cons_some (f := Piece.token?) rfl, filterMap_lineBreak]
      · simp [memberNodes, NamedNodes.tokens, Token.ofString]
      · simp

end Layout

/-- **The tokens of a layout** are those of the node that the value is written as. -/
theorem filterMap_pieces (layout : Layout) (v : Json) (depth : Nat) :
    (v.pieces layout depth).filterMap Piece.token? = v.toNode.tokens := by
  induction v using Json.induction generalizing depth with
  | null | bool b | integer i | string s => rfl
  | float x =>
    rw [pieces, toNode, floatToken]
    split <;> rfl
  | array items ih =>
    rw [pieces, itemPieces_eq, filterMap_enclose, filterMap_items fun v hv => ih v hv (depth + 1),
      toNode, Node.tokens]
  | object members ih =>
    rw [pieces, memberPieces_eq, filterMap_enclose,
      filterMap_members fun member hmember => ih member hmember (depth + 1), toNode, Node.tokens]

/-- The tokens that are a single mark. -/
def Token.marks : List Token :=
  [.openBrace, .closeBrace, .openBracket, .closeBracket, .comma, .colon]

/-- Pieces that are readable and do not go on with a number or a word before them. -/
structure Follows (pieces : List (Piece Token)) : Prop where
  readable : Readable pieces
  boundary : Boundary (Piece.spellAll Token.spell pieces)

theorem follows_nil : Follows [] :=
  ⟨trivial, by simp [Boundary, Piece.spellAll]⟩

/-- A comma, a colon or a bracket ends a literal and a number. -/
theorem follows_mark {t : Token} {pieces : List (Piece Token)} (ht : t ∈ Token.marks)
    (h : Readable pieces) : Follows (.token t :: pieces) := by
  simp only [Token.marks, List.mem_cons, List.not_mem_nil, or_false] at ht
  rcases ht with rfl | rfl | rfl | rfl | rfl | rfl <;>
  · refine ⟨⟨trivial, fun hopen => Bool.noConfusion hopen, h⟩, ?_⟩
    rintro _ ⟨⟩
    decide

theorem follows_blank {c : Char} {cs : List Char} {pieces : List (Piece Token)}
    (hc : c.isAlphanum = false ∧ c ≠ '.') (hblank : ∀ d ∈ c :: cs, isBlank d = true)
    (h : Readable pieces) : Follows (.blank (c :: cs) :: pieces) := by
  refine ⟨⟨hblank, h⟩, ?_⟩
  rintro _ ⟨⟩
  exact hc

theorem readable_token {t : Token} {pieces : List (Piece Token)} (ht : t.Proper)
    (h : Follows pieces) : Readable (.token t :: pieces) :=
  ⟨ht, fun _ => h.boundary, h.readable⟩

section Readable

variable {layout : Layout}

/-- A line break may stand before anything that is readable; a layout without line breaks adds
nothing. -/
theorem readable_lineBreak (depth : Nat) {pieces : List (Piece Token)} (h : Readable pieces) :
    Readable (layout.lineBreak depth ++ pieces) := by
  cases layout with
  | compact => exact h
  | pretty =>
    refine (follows_blank (by decide) ?_ h).readable
    rw [List.forall_mem_cons]
    refine ⟨rfl, ?_⟩
    intro d hd
    rw [List.eq_of_mem_replicate hd]
    rfl

/-- So does a line break, which the compact layout leaves out. -/
theorem follows_lineBreak (depth : Nat) {pieces : List (Piece Token)} (h : Follows pieces) :
    Follows (layout.lineBreak depth ++ pieces) := by
  refine ⟨readable_lineBreak depth h.readable, ?_⟩
  cases layout with
  | compact => exact h.boundary
  | pretty =>
    rintro _ ⟨⟩
    decide

theorem readable_colon {pieces : List (Piece Token)} (h : Readable pieces) :
    Readable (layout.colon ++ pieces) := by
  cases layout with
  | compact => exact (follows_mark (by decide) h).readable
  | pretty =>
    refine (follows_mark (by decide) ?_).readable
    exact (follows_blank (by decide) (List.forall_mem_singleton.mpr rfl) h).readable

/-- Readable rows stay readable with commas between them. -/
theorem readable_separated {level : Nat} {lists : List (List (Piece Token))}
    {rest : List (Piece Token)}
    (hlists : ∀ list ∈ lists, ∀ rest, Follows rest → Readable (list ++ rest))
    (hrest : Follows rest) :
    Readable (Piece.separated (.token .comma :: layout.lineBreak level) lists ++ rest) := by
  induction lists with
  | nil => exact hrest.readable
  | cons first lists ih =>
    rw [List.forall_mem_cons] at hlists
    cases lists with
    | nil => exact hlists.1 rest hrest
    | cons second lists =>
      rw [Piece.separated, List.append_assoc, List.append_assoc]
      · refine hlists.1 _ (follows_mark (by decide) ?_)
        exact readable_lineBreak level (ih hlists.2)
      · simp

/-- And so they do in brackets, of either kind. -/
theorem readable_enclose {opening closing : Token} (hopening : opening ∈ Token.marks)
    (hclosing : closing ∈ Token.marks) (depth : Nat) {lists : List (List (Piece Token))}
    {rest : List (Piece Token)}
    (hlists : ∀ list ∈ lists, ∀ rest, Follows rest → Readable (list ++ rest))
    (hrest : Readable rest) :
    Readable (layout.enclose depth opening closing lists ++ rest) := by
  have hend := follows_mark hclosing hrest
  rw [Layout.enclose]
  split
  · exact (follows_mark hopening hend.readable).readable
  · rw [List.cons_append, List.append_assoc, List.append_assoc, List.append_assoc]
    refine (follows_mark hopening (readable_lineBreak _ ?_)).readable
    exact readable_separated hlists (follows_lineBreak depth hend)

end Readable

/-- **The layout of every value is readable.** -/
theorem readable_pieces (layout : Layout) (v : Json) (depth : Nat) :
    ∀ rest, Follows rest → Readable (v.pieces layout depth ++ rest) := by
  induction v using Json.induction generalizing depth with
  | null | bool b => exact fun rest hrest => readable_token trivial hrest
  | integer i =>
    exact fun rest hrest => readable_token ⟨Numeral.proper_ofInt _, isNumber_ofInt _⟩ hrest
  | float x =>
    intro rest hrest
    rw [pieces, floatToken]
    split
    · rename_i hfinite
      exact readable_token ⟨Notation.proper_numeral _ hfinite, isNumber_numeral _ hfinite⟩ hrest
    · exact readable_token trivial hrest
  | string s => exact fun rest hrest => readable_token ⟨s.toList, rfl⟩ hrest
  | array items ih =>
    intro rest hrest
    rw [pieces, itemPieces_eq]
    refine readable_enclose (by decide) (by decide) depth ?_ hrest.readable
    exact List.forall_mem_map.mpr fun v hv => ih v hv (depth + 1)
  | object members ih =>
    intro rest hrest
    rw [pieces, memberPieces_eq]
    refine readable_enclose (by decide) (by decide) depth ?_ hrest.readable
    refine List.forall_mem_map.mpr ?_
    intro member hmember rest hrest
    rw [memberLine, List.cons_append, List.append_assoc]
    -- a name has an end of its own, so a colon may follow it at once
    refine ⟨⟨member.1.toList, rfl⟩, fun hopen => Bool.noConfusion hopen, readable_colon ?_⟩
    exact ih member hmember (depth + 1) rest hrest

/-- **The text of a value is read as its node**, in both layouts. -/
theorem ofText?_text_node (layout : Layout) (v : Json) :
    Node.ofText? (v.text layout) = some v.toNode := by
  have hreadable := readable_pieces layout v 0 [] follows_nil
  rw [List.append_nil] at hreadable
  rw [Node.ofText?, text, String.toList_ofList, scan_spellAll hreadable, filterMap_pieces]
  exact Node.ofTokens?_tokens v.toNode

/-! ## All values, and depth -/

mutual

/-- A value and all values inside it. -/
def values : Json → List Json
  | .array items => .array items :: itemValues items
  | .object members => .object members :: memberValues members
  | .null => [.null]
  | .bool b => [.bool b]
  | .integer i => [.integer i]
  | .float x => [.float x]
  | .string s => [.string s]

/-- All values of the items of an array. -/
def itemValues : List Json → List Json
  | [] => []
  | v :: rest => v.values ++ itemValues rest

/-- All values of the members of an object. -/
def memberValues : List (String × Json) → List Json
  | [] => []
  | (_, v) :: rest => v.values ++ memberValues rest

end

mutual

/-- How many arrays and objects lie inside each other in a value. -/
def depth : Json → Nat
  | .array items => itemDepth items + 1
  | .object members => memberDepth members + 1
  | .null | .bool _ | .integer _ | .float _ | .string _ => 0

/-- The same for the items of an array. -/
def itemDepth : List Json → Nat
  | [] => 0
  | v :: rest => max v.depth (itemDepth rest)

/-- The same for the members of an object. -/
def memberDepth : List (String × Json) → Nat
  | [] => 0
  | (_, v) :: rest => max v.depth (memberDepth rest)

end

section Inside

variable {P : Json → Prop} {n : Nat} {items : List Json} {members : List (String × Json)}

theorem forall_itemValues :
    (∀ w ∈ itemValues items, P w) ↔ ∀ v ∈ items, ∀ w ∈ v.values, P w := by
  induction items with
  | nil => simp [itemValues]
  | cons v rest ih => rw [itemValues, List.forall_mem_append, ih, List.forall_mem_cons]

theorem forall_memberValues :
    (∀ w ∈ memberValues members, P w) ↔ ∀ member ∈ members, ∀ w ∈ member.2.values, P w := by
  induction members with
  | nil => simp [memberValues]
  | cons member rest ih => rw [memberValues, List.forall_mem_append, ih, List.forall_mem_cons]

/-- An array counts itself besides what lies inside it. -/
theorem forall_values_array :
    (∀ w ∈ (array items).values, P w) ↔ P (.array items) ∧ ∀ v ∈ items, ∀ w ∈ v.values, P w := by
  rw [values, List.forall_mem_cons, forall_itemValues]

/-- So does an object. -/
theorem forall_values_object :
    (∀ w ∈ (object members).values, P w) ↔
      P (.object members) ∧ ∀ member ∈ members, ∀ w ∈ member.2.values, P w := by
  rw [values, List.forall_mem_cons, forall_memberValues]

theorem itemDepth_le : itemDepth items ≤ n ↔ ∀ v ∈ items, v.depth ≤ n := by
  induction items with
  | nil => simp [itemDepth]
  | cons v rest ih => rw [itemDepth, Nat.max_le, ih, List.forall_mem_cons]

theorem memberDepth_le : memberDepth members ≤ n ↔ ∀ member ∈ members, member.2.depth ≤ n := by
  induction members with
  | nil => simp [memberDepth]
  | cons member rest ih => rw [memberDepth, Nat.max_le, ih, List.forall_mem_cons]

end Inside

/-! ## Decoding -/

/-- What a JSON text can say of one value: a float is finite and an object has distinct
names. -/
def WellMade : Json → Prop
  | .float x => x.isFinite = true
  | .object members => (OrderedMap.keys members).Nodup
  | .null | .bool _ | .integer _ | .string _ | .array _ => True

theorem integer?_ofInt64 (i : Int64) : integer? (Numeral.ofInt64 i) = some i := by
  have hplain : (Numeral.ofInt64 i).negative = true → (Numeral.ofInt64 i).mantissa ≠ 0 := by
    intro hnegative hzero
    -- a zero is written without a minus
    have hvalue : (Numeral.ofInt64 i).toInt = i.toInt := Numeral.toInt_ofInt i.toInt
    rw [Numeral.toInt, if_pos hnegative, hzero] at hvalue
    rw [Numeral.ofInt64, ← hvalue] at hnegative
    exact absurd hnegative (by decide)
  rw [integer?, Numeral.ofInt64, Numeral.isInteger_ofInt, ← Numeral.ofInt64, Bool.true_and, if_pos,
    Numeral.toInt64?_ofInt64]
  cases hnegative : (Numeral.ofInt64 i).negative with
  | false => rfl
  | true => simp [hplain hnegative]

/-- A double that is read back from the number that is written for it, if there is one. -/
def ReadsExactly : Json → Prop
  | .float x => x.ReadsExactly
  | .null | .bool _ | .integer _ | .string _ | .array _ | .object _ => True

/-- **A finite double is read as some double**, and as itself where it is read exactly. -/
theorem recovers_float {x : Binary64} (hx : x.isFinite = true) :
    Recovers (finite? (Notation.json.numeral x)) x x.ReadsExactly True := by
  refine ⟨iff_of_true ?_ trivial, ?_⟩
  · exact Option.isSome_iff_exists.mpr (exists_finite?_numeral hx)
  · intro hexact y hy
    rw [hexact hx] at hy
    exact (Option.some.inj hy).symm

theorem ofNumeral?_numeral {x : Binary64} (hx : x.isFinite = true) :
    ofNumeral? (Notation.json.numeral x) = (finite? (Notation.json.numeral x)).map .float := by
  have hfloat := Numeral.isInteger_eq_false_of_isFloat
    (Notation.isFloat_numeral Notation.json hx rfl)
  rw [ofNumeral?, integer?, hfloat, Bool.false_and, if_neg (by decide)]

section Decode

variable {levels : Nat}

theorem itemNodes_eq (items : List Json) : itemNodes items = items.map toNode := by
  induction items with
  | nil => rfl
  | cons v rest ih => rw [itemNodes, ih, List.map_cons]

theorem Nodes.decode?_eq (nodes : List Node) :
    Nodes.decode? levels nodes = nodes.mapM (Node.decode? levels) := by
  induction nodes with
  | nil => rfl
  | cons node rest ih => rw [Nodes.decode?, ih, List.mapM_cons]

/-- The name of a member and its value, decoded. -/
def NamedNode.decode? (levels : Nat) (member : List Part × Node) : Option (String × Json) :=
  (Part.text? member.1).bind fun name => (member.2.decode? levels).map (name, ·)

theorem memberNodes_eq (members : List (String × Json)) :
    memberNodes members = members.map fun m => (m.1.toList.map Part.ofChar, m.2.toNode) := by
  induction members with
  | nil => rfl
  | cons member rest ih => rw [memberNodes, ih, List.map_cons]

theorem NamedNodes.decode?_eq (nodes : List (List Part × Node)) :
    NamedNodes.decode? levels nodes = nodes.mapM (NamedNode.decode? levels) := by
  induction nodes with
  | nil => rfl
  | cons node rest ih =>
    rw [NamedNodes.decode?, ih, List.mapM_cons, NamedNode.decode?]
    cases Part.text? node.1 <;> cases node.2.decode? levels <;> rfl

end Decode

/-- **A value is decoded from its node**, unless it is too deep for it: with its floats as they are
read, and so as itself where these are read back exactly. -/
theorem decode?_toNode (v : Json) (h : ∀ w ∈ v.values, w.WellMade) (levels : Nat) :
    Recovers (v.toNode.decode? levels) v (∀ w ∈ v.values, w.ReadsExactly) (v.depth ≤ levels) := by
  induction v using Json.induction generalizing levels with
  | null | bool b => exact .self _ (Nat.zero_le _)
  | integer i =>
    rw [toNode, Node.decode?, ofNumeral?, integer?_ofInt64]
    exact .self _ (Nat.zero_le _)
  | float x =>
    have hfinite : x.isFinite = true := h (.float x) (by simp [values])
    rw [toNode, if_pos hfinite, Node.decode?, ofNumeral?_numeral hfinite]
    refine ((recovers_float hfinite).map Json.float).imp ?_ (iff_of_true trivial (Nat.zero_le _))
    exact fun hexact => hexact (.float x) (by simp [values])
  | string s =>
    rw [toNode, Node.decode?, text?_ofChar]
    exact .self _ (Nat.zero_le _)
  | array items ih =>
    obtain ⟨-, hitems⟩ := forall_values_array.mp h
    rw [toNode, Node.decode?, depth]
    cases levels with
    | zero => exact .refused _ (by omega)
    | succ levels =>
      rw [if_neg (by simp), Nat.add_sub_cancel, Nodes.decode?_eq, itemNodes_eq,
        Nat.add_le_add_iff_right]
      have hall := Recovers.mapM fun v hv => ih v hv (hitems v hv) levels
      refine (hall.map Json.array).imp ?_ itemDepth_le.symm
      exact fun hexact => (forall_values_array.mp hexact).2
  | object members ih =>
    obtain ⟨hnames, hmembers⟩ := forall_values_object.mp h
    rw [toNode, Node.decode?, depth]
    cases levels with
    | zero => exact .refused _ (by omega)
    | succ levels =>
      rw [if_neg (by simp), Nat.add_sub_cancel, NamedNodes.decode?_eq, memberNodes_eq,
        Nat.add_le_add_iff_right]
      have hall : Recovers ((members.map fun m => (m.1.toList.map Part.ofChar, m.2.toNode)).mapM
          (NamedNode.decode? levels)) members
          (∀ m ∈ members, ∀ w ∈ m.2.values, w.ReadsExactly)
          (∀ m ∈ members, m.2.depth ≤ levels) := by
        refine Recovers.mapM fun m hm => ?_
        rw [NamedNode.decode?, text?_ofChar, Option.bind_some]
        exact (ih m hm (hmembers m hm) levels).map (m.1, ·)
      -- names that are distinct all keep their places
      have hobject := (hall.map fun ms => Json.object (OrderedMap.ofList ms)).imp
        (fun hexact => (forall_values_object.mp hexact).2) memberDepth_le.symm
      rwa [OrderedMap.ofList_of_nodup hnames] at hobject

/-- **A value is read from its text**, in both layouts, unless it is too deep. -/
theorem ofText?_text (layout : Layout) {v : Json} (h : ∀ w ∈ v.values, w.WellMade) :
    Recovers (ofText? (v.text layout)) v (∀ w ∈ v.values, w.ReadsExactly)
      (v.depth ≤ maxDepth) := by
  rw [ofText?, ofText?_text_node, Option.bind_eq_bind, Option.bind_some]
  exact decode?_toNode v h maxDepth

/-- What is read from the text of an object is an object. -/
theorem object_of_ofText?_text {layout : Layout} {members : List (String × Json)} {v : Json}
    (h : ofText? ((object members).text layout) = some v) : ∃ read, v = .object read := by
  rw [ofText?, ofText?_text_node, Option.bind_eq_bind, Option.bind_some, toNode, Node.decode?,
    if_neg (by decide), Option.map_eq_some_iff] at h
  obtain ⟨read, -, rfl⟩ := h
  exact ⟨_, rfl⟩

/-- Both layouts are read as one and the same, whatever is read. -/
theorem ofText?_text_layout (v : Json) (layout layout' : Layout) :
    ofText? (v.text layout) = ofText? (v.text layout') := by
  rw [ofText?, ofText?, ofText?_text_node, ofText?_text_node]

/-! ## What is decoded -/

section Decoded

variable {levels : Nat}

/-- What is decoded with a number of levels: values no deeper than that, well made throughout. -/
def IsDecoded (levels : Nat) (v : Json) : Prop :=
  v.depth ≤ levels ∧ ∀ w ∈ v.values, w.WellMade

theorem isDecoded_ofNumeral? {n : Numeral} {v : Json} (h : ofNumeral? n = some v) :
    v.IsDecoded levels := by
  rw [ofNumeral?] at h
  split at h
  · cases h
    exact ⟨Nat.zero_le _, by simp [values, WellMade]⟩
  · obtain ⟨x, hx, rfl⟩ := Option.map_eq_some_iff.mp h
    have hfinite := (isFinite_of_finite? hx).1
    exact ⟨Nat.zero_le _, by simpa [values, WellMade] using hfinite⟩

/-- Members that are decoded one by one, whatever their names. -/
theorem isDecoded_members {nodes : List (List Part × Node)}
    (h : ∀ member ∈ nodes, ∀ v, member.2.decode? levels = some v → v.IsDecoded levels)
    {members : List (String × Json)} (hmembers : NamedNodes.decode? levels nodes = some members) :
    ∀ member ∈ members, member.2.IsDecoded levels := by
  rw [NamedNodes.decode?_eq] at hmembers
  refine forall_mapM ?_ hmembers
  intro node hnode member hmember
  obtain ⟨name, -, hvalue⟩ := Option.bind_eq_some_iff.mp hmember
  obtain ⟨v, hv, rfl⟩ := Option.map_eq_some_iff.mp hvalue
  exact h node hnode v hv

/-- **Nothing is decoded that is too deep or not well made.** -/
theorem isDecoded_decode? (node : Node) {v : Json} (h : node.decode? levels = some v) :
    v.IsDecoded levels := by
  induction node using Node.induction generalizing levels v with
  | null | bool b =>
    cases h
    exact ⟨Nat.zero_le _, by simp [values, WellMade]⟩
  | number n => exact isDecoded_ofNumeral? h
  | string parts =>
    obtain ⟨s, -, rfl⟩ := Option.map_eq_some_iff.mp h
    exact ⟨Nat.zero_le _, by simp [values, WellMade]⟩
  | array nodes ih =>
    rw [Node.decode?] at h
    cases levels with
    | zero => cases h
    | succ levels =>
      rw [if_neg (by simp), Nat.add_sub_cancel] at h
      obtain ⟨items, hitems, rfl⟩ := Option.map_eq_some_iff.mp h
      rw [Nodes.decode?_eq] at hitems
      have hall := forall_mapM (fun node hnode v hv => ih node hnode hv) hitems
      refine ⟨Nat.succ_le_succ (itemDepth_le.mpr fun v hv => (hall v hv).1), ?_⟩
      exact forall_values_array.mpr ⟨trivial, fun v hv => (hall v hv).2⟩
  | object nodes ih =>
    rw [Node.decode?] at h
    cases levels with
    | zero => cases h
    | succ levels =>
      rw [if_neg (by simp), Nat.add_sub_cancel] at h
      obtain ⟨members, hmembers, rfl⟩ := Option.map_eq_some_iff.mp h
      have hall := isDecoded_members (fun member hmember v hv => ih member hmember hv) hmembers
      -- a name that is repeated keeps only the last of its values
      have hkept : ∀ member ∈ OrderedMap.ofList members, member.2.IsDecoded levels :=
        fun member hmember => hall member (OrderedMap.mem_ofList hmember)
      refine ⟨Nat.succ_le_succ (memberDepth_le.mpr fun m hm => (hkept m hm).1), ?_⟩
      refine forall_values_object.mpr ⟨OrderedMap.nodup_keys_ofList members, ?_⟩
      exact fun member hmember => (hkept member hmember).2

/-- **Every value that is read from a text** is well made and no deeper than the reader goes. -/
theorem isDecoded_ofText? {text : String} {v : Json} (h : ofText? text = some v) :
    v.IsDecoded maxDepth := by
  simp only [ofText?, Option.bind_eq_bind, Option.bind_eq_some_iff] at h
  obtain ⟨node, -, hnode⟩ := h
  exact isDecoded_decode? node hnode

end Decoded

end Json

end DataLisp
