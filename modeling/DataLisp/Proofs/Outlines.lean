/-
An outline loses nothing but positions.

Nothing in an outline is put in brackets: what belongs together is told by line breaks, by
indentation and by the words at the start of a line. So the tree is found again in three steps.
The lines come back from the printed text, because no line holds a line break or starts with a
space of its own (`printLines_inj`). The lines of one value come back from a row of them, because a
value is a line with deeper ones below it, and the next value starts at the depth of the first
(`Block.map_eq_of_rows`). And the first line of a value says its key, its kind and its name or
literal (`key_eq_of_label`, `headline_inj`), because keys are words and kinds are written in
letters; the texts of literals are told apart elsewhere. An induction on the tree puts the steps
together (`Tree.told`).

All this asks of a tree that its names and keys are words and its floats are numbers. The parser
makes no others, whatever it is given (`Spans.legible`): where it finds no name or no key it makes
an empty one or none, and a float is rounded from a numeral.
-/
import DataLisp.Proofs.Evaluation
import DataLisp.Proofs.Literals
import DataLisp.Proofs.Recovery
import DataLisp.Proofs.Relocation
import DataLisp.Tree.Outline

set_option autoImplicit false

namespace DataLisp

/-! ## Lines -/

namespace Outline

/-- A line whose text neither breaks it nor goes on with its indentation. -/
structure Line.Legible (line : Line) : Prop where
  unbroken : '\n' ∉ line.text.toList
  unpadded : line.text.toList.head? ≠ some ' '

/-- A printed line is its indentation, its text and a line break. -/
theorem Line.toList_print (line : Line) :
    line.print.toList = (List.replicate (2 * line.depth) ' ' ++ line.text.toList) ++ ['\n'] := by
  rw [print, String.toList_append, String.toList_append, String.toList_ofList]
  rfl

/-- **A line is read off the front** of whatever it is printed before. -/
theorem Line.print_append_inj {line line' : Line} (h : line.Legible) (h' : line'.Legible)
    {rest rest' : List Char} (heq : line.print.toList ++ rest = line'.print.toList ++ rest') :
    line = line' ∧ rest = rest' := by
  have hbreak : ∀ {line : Line}, line.Legible →
      ∀ c ∈ List.replicate (2 * line.depth) ' ' ++ line.text.toList, (c != '\n') = true := by
    intro line hline c hc
    rcases List.mem_append.mp hc with hc | hc
    · rw [List.eq_of_mem_replicate hc]
      rfl
    · exact bne_iff_ne.mpr fun hnewline => hline.unbroken (hnewline ▸ hc)
  have hstop : ∀ (rest : List Char) c, (['\n'] ++ rest).head? = some c →
      (c != '\n') = false := by
    rintro rest c ⟨⟩
    rfl
  rw [toList_print, toList_print, List.append_assoc _ ['\n'], List.append_assoc _ ['\n']] at heq
  -- the line ends at the first break
  obtain ⟨hline, hrest⟩ :=
    run_append_inj (hbreak h) (hbreak h') (hstop rest) (hstop rest') heq
  have hspaces : ∀ n, ∀ c ∈ List.replicate n ' ', (c == ' ') = true := by
    intro n c hc
    rw [List.eq_of_mem_replicate hc]
    rfl
  have htext : ∀ {line : Line}, line.Legible → ∀ c, line.text.toList.head? = some c →
      (c == ' ') = false := by
    intro line hline c hc
    exact beq_eq_false_iff_ne.mpr fun hspace => hline.unpadded (hspace ▸ hc)
  -- and its indentation where the text begins
  obtain ⟨hpad, htext⟩ :=
    run_append_inj (hspaces _) (hspaces _) (htext h) (htext h') hline
  have hdepth : line.depth = line'.depth := by
    have hlength := congrArg List.length hpad
    rw [List.length_replicate, List.length_replicate] at hlength
    omega
  obtain ⟨depth, text⟩ := line
  obtain ⟨depth', text'⟩ := line'
  refine ⟨?_, (List.cons.inj hrest).2⟩
  rw [Line.mk.injEq]
  exact ⟨hdepth, String.toList_inj.mp htext⟩

theorem Line.print_ne_nil (line : Line) : line.print.toList ≠ [] := by
  rw [toList_print]
  exact List.append_ne_nil_of_right_ne_nil _ (List.cons_ne_nil _ _)

/-- **Printed lines are told apart.** -/
theorem printLines_inj {lines lines' : List Line} (h : ∀ line ∈ lines, line.Legible)
    (h' : ∀ line ∈ lines', line.Legible)
    (heq : String.join (lines.map Line.print) = String.join (lines'.map Line.print)) :
    lines = lines' := by
  have hchars := congrArg String.toList heq
  rw [String.toList_join, String.toList_join, List.flatMap_map, List.flatMap_map] at hchars
  have hmap : lines.map id = lines'.map id :=
    map_eq_of_flatMap_eq Line.print_ne_nil
      (fun line hline line' hline' _ _ => Line.print_append_inj (h line hline) (h' line' hline'))
      hchars
  rwa [List.map_id, List.map_id] at hmap

/-! ## Blocks -/

/-- A line with deeper ones below it. -/
def Block (depth : Nat) (lines : List Line) : Prop :=
  ∃ text below, lines = ⟨depth, text⟩ :: below ∧ ∀ line ∈ below, depth < line.depth

namespace Block

variable {α β : Type} {depth : Nat} {lines lines' : List Line} {block : α → List Line}

theorem ne_nil (h : Block depth lines) : lines ≠ [] := by
  obtain ⟨text, below, rfl, -⟩ := h
  exact List.cons_ne_nil _ _

/-- No line of a block is less deep than its first. -/
theorem le (h : Block depth lines) : ∀ line ∈ lines, depth ≤ line.depth := by
  obtain ⟨text, below, rfl, hbelow⟩ := h
  exact List.forall_mem_cons.mpr
    ⟨Nat.le_refl _, fun line hline => Nat.le_of_lt (hbelow line hline)⟩

/-- A row of blocks is deep enough to stand below a line. -/
theorem lt_of_mem_flatMap {as : List α} (hblock : ∀ a ∈ as, Block (depth + 1) (block a)) :
    ∀ line ∈ as.flatMap block, depth < line.depth := by
  intro line hline
  obtain ⟨a, ha, hmem⟩ := List.mem_flatMap.mp hline
  exact (hblock a ha).le line hmem

/-- A row of blocks starts at their depth. -/
theorem flatMap_head (hblock : ∀ a, Block depth (block a)) (as : List α) :
    ∀ line, (as.flatMap block).head? = some line → decide (depth < line.depth) = false := by
  cases as with
  | nil => rintro line ⟨⟩
  | cons a as =>
    obtain ⟨text, below, ha, -⟩ := hblock a
    rw [List.flatMap_cons, ha]
    rintro line ⟨⟩
    exact decide_eq_false (Nat.lt_irrefl depth)

/-- A block ends where the next one starts. -/
theorem append_inj (h : Block depth lines) (h' : Block depth lines') {rest rest' : List Line}
    (hrest : ∀ line, rest.head? = some line → decide (depth < line.depth) = false)
    (hrest' : ∀ line, rest'.head? = some line → decide (depth < line.depth) = false)
    (heq : lines ++ rest = lines' ++ rest') : lines = lines' ∧ rest = rest' := by
  obtain ⟨text, below, rfl, hbelow⟩ := h
  obtain ⟨text', below', rfl, hbelow'⟩ := h'
  obtain ⟨hfirst, htail⟩ := List.cons.inj heq
  obtain ⟨hbelow, hrest⟩ := run_append_inj (p := fun line => decide (depth < line.depth))
    (fun line hline => decide_eq_true (hbelow line hline))
    (fun line hline => decide_eq_true (hbelow' line hline)) hrest hrest' htail
  rw [hfirst, hbelow]
  exact ⟨rfl, hrest⟩

/-- **A row of blocks is told apart block by block.** -/
theorem map_eq_of_rows (hblock : ∀ a, Block depth (block a)) {f : α → β} {as as' : List α}
    (hone : ∀ a ∈ as, ∀ a' ∈ as', block a = block a' → f a = f a')
    (h : as.flatMap block = as'.flatMap block) : as.map f = as'.map f := by
  refine map_eq_of_flatMap_eq (fun a => (hblock a).ne_nil) ?_ h
  intro a ha a' ha' bs bs' heq
  obtain ⟨hfirst, hrest⟩ := append_inj (hblock a) (hblock a') (flatMap_head hblock bs)
    (flatMap_head hblock bs') heq
  exact ⟨hone a ha a' ha' hfirst, hrest⟩

end Block

end Outline

/-! ## The lines of a tree -/

open Outline (Line Block label)

/-- The lines of an entry. -/
def Entry.lines (depth : Nat) (e : Entry) : List Line :=
  e.value.lines depth (label e.key)

/-- The lines of entries come one entry after the other. -/
theorem Entries.lines_eq (depth : Nat) (es : List Entry) :
    Entries.lines depth es = es.flatMap (Entry.lines depth) := by
  induction es with
  | nil => rfl
  | cons e es ih =>
    obtain ⟨key, value, p⟩ := e
    rw [Entries.lines, ih]
    rfl

/-- The same for items, which have no label. -/
theorem Trees.lines_eq (depth : Nat) (items : List Tree) :
    Trees.lines depth items = items.flatMap (Tree.lines depth "") := by
  induction items with
  | nil => rfl
  | cons item items ih => rw [Trees.lines, ih, List.flatMap_cons]

/-- A form is a line with its name, and the lines of its entries below it. -/
theorem Form.lines_eq (depth : Nat) (form : Form) :
    form.lines depth =
      ⟨depth, "Statement " ++ form.name⟩ :: form.entries.flatMap (Entry.lines (depth + 1)) := by
  obtain ⟨name, entries, p⟩ := form
  rw [Form.lines, Entries.lines_eq]

namespace Tree

/-- The word for what a value is. -/
def kind : Tree → String
  | .group _ => "Group"
  | .array _ => "Array"
  | .expression _ => "Expression"
  | .integer _ => "Integer"
  | .float _ => "Float"
  | .string _ => "String"
  | .bool _ => "Bool"
  | .null => "Null"
  | .invalid => "Invalid"

/-- The name or literal that stands behind that word, if there is one. -/
def detail : Tree → Option String
  | .group _ | .array _ | .null | .invalid => none
  | .expression form => some form.name
  | .integer i => some (Numeral.ofInt64 i).text
  | .float x => some (Notation.document.text x)
  | .string s => some (Text.quote s)
  | .bool b => some (if b then "true" else "false")

/-- What the first line of a value says, its key apart. -/
def headline (tree : Tree) : String :=
  match tree.detail with
  | some text => tree.kind ++ " " ++ text
  | none => tree.kind

/-- The lines below the first. -/
def under (depth : Nat) : Tree → List Line
  | .group form => form.lines depth
  | .array items => items.flatMap (Tree.lines depth "")
  | .expression form => form.entries.flatMap (Entry.lines depth)
  | .integer _ | .float _ | .string _ | .bool _ | .null | .invalid => []

/-- A value is its first line, which holds the label, and the lines below it. -/
theorem lines_eq (depth : Nat) (label : String) (tree : Tree) :
    tree.lines depth label = ⟨depth, label ++ tree.headline⟩ :: tree.under (depth + 1) := by
  cases tree with
  | group form => rfl
  | array items => rw [lines, Trees.lines_eq]; rfl
  | expression form =>
    obtain ⟨name, entries, p⟩ := form
    rw [lines, Entries.lines_eq, String.append_assoc]
    rfl
  | integer i => rw [lines, String.append_assoc]; rfl
  | float x => rw [lines, String.append_assoc]; rfl
  | string s => rw [lines, String.append_assoc]; rfl
  | bool b => rw [lines, String.append_assoc]; rfl
  | null => rfl
  | invalid => rfl

end Tree

/-- A form is a block, given that its entries are. -/
theorem Form.block_of_entries {form : Form} {depth : Nat}
    (h : ∀ e ∈ form.entries, Block (depth + 1) (e.lines (depth + 1))) :
    Block depth (form.lines depth) := by
  rw [Form.lines_eq]
  exact ⟨_, _, rfl, Block.lt_of_mem_flatMap h⟩

/-- **A value is a block.** -/
theorem Tree.block_lines (tree : Tree) (depth : Nat) (label : String) :
    Block depth (tree.lines depth label) := by
  induction tree using Tree.induction generalizing depth label with
  | group form ih =>
    have hform : Block (depth + 1) (form.lines (depth + 1)) :=
      Form.block_of_entries fun e he => ih e he _ _
    rw [lines_eq]
    exact ⟨_, _, rfl, hform.le⟩
  | array items ih =>
    rw [lines_eq]
    exact ⟨_, _, rfl, Block.lt_of_mem_flatMap fun item hitem => ih item hitem _ _⟩
  | expression form ih =>
    rw [lines_eq]
    exact ⟨_, _, rfl, Block.lt_of_mem_flatMap fun e he => ih e he _ _⟩
  | integer _ | float _ | string _ | bool _ | null | invalid =>
    rw [lines_eq]
    exact ⟨_, _, rfl, by rintro line ⟨⟩⟩

theorem Entry.block_lines (depth : Nat) (e : Entry) : Block depth (e.lines depth) :=
  e.value.block_lines depth _

theorem Form.block_lines (depth : Nat) (form : Form) : Block depth (form.lines depth) :=
  Form.block_of_entries fun e _ => e.block_lines _

/-! ## The first line of a value -/

namespace Tree

variable {tree tree' : Tree}

/-- The word for a kind is in letters only. -/
theorem isAlpha_kind (tree : Tree) :
    tree.kind.toList ≠ [] ∧ ∀ c ∈ tree.kind.toList, c.isAlpha = true := by
  constructor
  · cases tree <;> rw [kind] <;> decide
  · refine List.all_eq_true.mp ?_
    cases tree <;> rw [kind] <;> decide

/-- What follows the kind in a headline. -/
def tail (tree : Tree) : List Char :=
  tree.detail.elim [] fun text => ' ' :: text.toList

theorem toList_headline (tree : Tree) : tree.headline.toList = tree.kind.toList ++ tree.tail := by
  rw [headline, tail]
  cases tree.detail with
  | none => exact (List.append_nil _).symm
  | some text =>
    rw [String.toList_append, String.toList_append, List.append_assoc]
    rfl

/-- So the word ends where the rest of the headline starts, if there is one. -/
theorem tail_head (tree : Tree) : ∀ c, tree.tail.head? = some c → c.isAlpha = false := by
  rw [tail]
  cases tree.detail with
  | none => rintro c ⟨⟩
  | some text =>
    rintro c ⟨⟩
    rfl

/-- A headline starts with a letter. -/
theorem headline_head (tree : Tree) :
    ∃ c cs, tree.headline.toList = c :: cs ∧ c.isAlpha = true := by
  obtain ⟨hne, hall⟩ := tree.isAlpha_kind
  obtain ⟨c, cs, hkind⟩ := List.exists_cons_of_ne_nil hne
  rw [toList_headline, hkind]
  exact ⟨c, cs ++ tree.tail, rfl, hall c (by rw [hkind]; exact List.mem_cons_self)⟩

/-- **A headline says the kind of a value, and its name or literal.** -/
theorem headline_inj (h : tree.headline = tree'.headline) :
    tree.kind = tree'.kind ∧ tree.detail = tree'.detail := by
  have hchars := congrArg String.toList h
  rw [toList_headline, toList_headline] at hchars
  obtain ⟨hkind, htail⟩ := run_append_inj tree.isAlpha_kind.2 tree'.isAlpha_kind.2
    tree.tail_head tree'.tail_head hchars
  refine ⟨String.toList_inj.mp hkind, ?_⟩
  rw [tail, tail] at htail
  cases hdetail : tree.detail <;> cases hdetail' : tree'.detail <;>
    simp_all [String.toList_inj]

/-- Two values of one kind. -/
inductive Alike : Tree → Tree → Prop where
  | group (form form' : Form) : Alike (.group form) (.group form')
  | array (items items' : List Tree) : Alike (.array items) (.array items')
  | expression (form form' : Form) : Alike (.expression form) (.expression form')
  | integer (i j : Int64) : Alike (.integer i) (.integer j)
  | float (x y : Binary64) : Alike (.float x) (.float y)
  | string (s s' : String) : Alike (.string s) (.string s')
  | bool (b b' : Bool) : Alike (.bool b) (.bool b')
  | null : Alike .null .null
  | invalid : Alike .invalid .invalid

/-- The word says which constructor a tree has. -/
theorem alike_of_kind_eq (h : tree.kind = tree'.kind) : Alike tree tree' := by
  -- the words of two kinds differ
  cases tree <;> cases tree' <;> first
    | constructor
    | simp [kind] at h

end Tree

namespace Outline

/-- Letters, digits and underlines, perhaps none at all: what names and keys are. -/
def IsWord (s : String) : Prop :=
  ∀ c ∈ s.toList, Token.isWordPart c = true

/-- A label is the key between a colon and a space. -/
theorem toList_label (key text : String) :
    (label (some key) ++ text).toList = ':' :: (key.toList ++ ' ' :: text.toList) := by
  simp [label]

theorem label_none (text : String) : label none ++ text = text :=
  String.empty_append

/-- A value with a key does not look like one without. -/
theorem label_ne_headline (key text : String) (tree : Tree) :
    label (some key) ++ text ≠ tree.headline := by
  intro h
  obtain ⟨c, cs, htree, hc⟩ := tree.headline_head
  rw [← h, toList_label] at htree
  rw [← (List.cons.inj htree).1] at hc
  exact absurd hc (by decide)

/-- **A label says its key**, whatever value it stands before. -/
theorem key_eq_of_label {key key' : Option String} (h : ∀ k ∈ key, IsWord k)
    (h' : ∀ k ∈ key', IsWord k) {tree tree' : Tree}
    (heq : label key ++ tree.headline = label key' ++ tree'.headline) : key = key' := by
  cases key with
  | none =>
    cases key' with
    | none => rfl
    | some key' =>
      rw [label_none] at heq
      exact absurd heq.symm (label_ne_headline key' _ tree)
  | some key =>
    cases key' with
    | none =>
      rw [label_none] at heq
      exact absurd heq (label_ne_headline key _ tree')
    | some key' =>
      have hchars := congrArg String.toList heq
      rw [toList_label, toList_label] at hchars
      -- the key ends at the space
      have hstop : ∀ (rest : List Char) c, (' ' :: rest).head? = some c →
          Token.isWordPart c = false := by
        rintro rest c ⟨⟩
        rfl
      obtain ⟨hkey, -⟩ := run_append_inj (h key rfl) (h' key' rfl) (hstop _) (hstop _)
        (List.cons.inj hchars).2
      rw [String.toList_inj.mp hkey]

end Outline

/-! ## Legible trees -/

open Outline (IsWord)

/-- **A legible tree**: its names and keys are words, and its floats are numbers. -/
inductive Tree.Legible : Tree → Prop where
  | group {form : Form} (hname : IsWord form.name)
      (hkeys : ∀ e ∈ form.entries, ∀ key ∈ e.key, IsWord key)
      (hvalues : ∀ e ∈ form.entries, Legible e.value) : Legible (.group form)
  | array {items : List Tree} (hitems : ∀ item ∈ items, Legible item) : Legible (.array items)
  | expression {form : Form} (hname : IsWord form.name)
      (hkeys : ∀ e ∈ form.entries, ∀ key ∈ e.key, IsWord key)
      (hvalues : ∀ e ∈ form.entries, Legible e.value) : Legible (.expression form)
  | integer (i : Int64) : Legible (.integer i)
  | float {x : Binary64} (hnumber : x.isNaN = false) : Legible (.float x)
  | string (s : String) : Legible (.string s)
  | bool (b : Bool) : Legible (.bool b)
  | null : Legible .null
  | invalid : Legible .invalid

/-- The same for an entry. -/
structure Entry.Legible (e : Entry) : Prop where
  key : ∀ key ∈ e.key, IsWord key
  value : e.value.Legible

/-- The same for a form. -/
structure Form.Legible (form : Form) : Prop where
  name : IsWord form.name
  entries : ∀ e ∈ form.entries, e.Legible

theorem Form.Legible.group {form : Form} (h : form.Legible) : (Tree.group form).Legible :=
  .group h.name (fun e he => (h.entries e he).key) fun e he => (h.entries e he).value

theorem Form.Legible.expression {form : Form} (h : form.Legible) :
    (Tree.expression form).Legible :=
  .expression h.name (fun e he => (h.entries e he).key) fun e he => (h.entries e he).value

namespace Tree.Legible

theorem form {form : Form} (h : (Tree.group form).Legible) : form.Legible := by
  cases h with
  | group hname hkeys hvalues => exact ⟨hname, fun e he => ⟨hkeys e he, hvalues e he⟩⟩

theorem expressionForm {form : Form} (h : (Tree.expression form).Legible) : form.Legible := by
  cases h with
  | expression hname hkeys hvalues => exact ⟨hname, fun e he => ⟨hkeys e he, hvalues e he⟩⟩

theorem item {items : List Tree} (h : (Tree.array items).Legible) {item : Tree}
    (hitem : item ∈ items) : item.Legible := by
  cases h with
  | array hitems => exact hitems item hitem

theorem isNaN {x : Binary64} (h : (Tree.float x).Legible) : x.isNaN = false := by
  cases h with
  | float hnumber => exact hnumber

end Tree.Legible

/-! ### The lines of a legible tree -/

/-- A word holds no line break. -/
theorem Outline.IsWord.unbroken {s : String} (h : IsWord s) : '\n' ∉ s.toList :=
  fun hmem => absurd (h _ hmem) (by decide)

theorem Outline.label_unbroken {key : Option String} (hkey : ∀ k ∈ key, IsWord k) :
    '\n' ∉ (label key).toList := by
  cases key with
  | none => decide
  | some key => simpa [label] using (hkey key rfl).unbroken

namespace Tree.Legible

variable {tree : Tree}

/-- Neither does a name or a literal; in a string it is written as an escape. -/
theorem detail_unbroken (h : tree.Legible) : ∀ text ∈ tree.detail, '\n' ∉ text.toList := by
  cases h with
  | group _ _ _ | array _ | null | invalid => rintro text ⟨⟩
  | expression hname _ _ =>
    rintro text ⟨⟩
    exact hname.unbroken
  | integer i =>
    rintro text ⟨⟩
    exact (Numeral.proper_ofInt _).newline_notMem
  | @float x _ =>
    rintro text ⟨⟩
    exact Notation.document.newline_notMem_text x
  | string s =>
    rintro text ⟨⟩
    exact Text.newline_notMem_quote s
  | bool b =>
    rintro text ⟨⟩
    cases b <;> decide

/-- So the first line of a value is one line. -/
theorem headline_unbroken (h : tree.Legible) : '\n' ∉ tree.headline.toList := by
  rw [toList_headline, tail, List.mem_append]
  rintro (hmem | hmem)
  · exact absurd (tree.isAlpha_kind.2 _ hmem) (by decide)
  · cases hdetail : tree.detail with
    | none =>
      rw [hdetail] at hmem
      cases hmem
    | some text =>
      rw [hdetail] at hmem
      rcases List.mem_cons.mp hmem with hmem | hmem
      · exact absurd hmem (by decide)
      · exact h.detail_unbroken text hdetail hmem

/-- **The first line of a value is legible.** -/
theorem firstLine (h : tree.Legible) {key : Option String} (hkey : ∀ k ∈ key, IsWord k)
    (depth : Nat) : (⟨depth, label key ++ tree.headline⟩ : Line).Legible where
  unbroken := by
    rw [String.toList_append, List.mem_append]
    rintro (hmem | hmem)
    · exact Outline.label_unbroken hkey hmem
    · exact h.headline_unbroken hmem
  unpadded := by
    cases key with
    | none =>
      obtain ⟨c, cs, hhead, hc⟩ := tree.headline_head
      rw [Outline.label_none, hhead]
      rintro ⟨⟩
      exact absurd hc (by decide)
    | some key =>
      rw [Outline.toList_label]
      exact fun h => absurd (Option.some.inj h) (by decide)

end Tree.Legible

/-- The line with the name of a form is legible, and the others are by assumption. -/
theorem Form.lines_legible {form : Form} (hname : IsWord form.name) {depth : Nat}
    (hentries : ∀ e ∈ form.entries, ∀ line ∈ e.lines (depth + 1), line.Legible) :
    ∀ line ∈ form.lines depth, line.Legible := by
  rw [Form.lines_eq, List.forall_mem_cons, List.forall_mem_flatMap]
  refine ⟨⟨?_, ?_⟩, hentries⟩
  · rw [String.toList_append, List.mem_append]
    rintro (hmem | hmem)
    · exact absurd hmem (by decide)
    · exact hname.unbroken hmem
  · rw [String.toList_append]
    exact fun h => absurd (Option.some.inj h) (by decide)

/-- The first line of a value is legible anyway, so the lines below decide. -/
theorem Tree.Legible.lines_of_under {tree : Tree} (h : tree.Legible) {key : Option String}
    (hkey : ∀ k ∈ key, IsWord k) {depth : Nat}
    (hunder : ∀ line ∈ tree.under (depth + 1), line.Legible) :
    ∀ line ∈ tree.lines depth (label key), line.Legible := by
  rw [lines_eq, List.forall_mem_cons]
  exact ⟨h.firstLine hkey depth, hunder⟩

/-- **All lines below a legible value are legible.** The induction is on what makes it legible. -/
theorem Tree.Legible.under {tree : Tree} (h : tree.Legible) (depth : Nat) :
    ∀ line ∈ tree.under depth, line.Legible := by
  induction h generalizing depth with
  | group hname hkeys hvalues ih =>
    exact Form.lines_legible hname fun e he =>
      (hvalues e he).lines_of_under (hkeys e he) (ih e he _)
  | array hitems ih =>
    -- items have no keys
    have hkey : ∀ k ∈ (none : Option String), IsWord k := by simp
    exact List.forall_mem_flatMap.mpr fun item hitem =>
      (hitems item hitem).lines_of_under hkey (ih item hitem _)
  | expression hname hkeys hvalues ih =>
    exact List.forall_mem_flatMap.mpr fun e he =>
      (hvalues e he).lines_of_under (hkeys e he) (ih e he _)
  | integer _ | float _ | string _ | bool _ | null | invalid => rintro line ⟨⟩

/-- **All lines of a legible form are legible.** -/
theorem Form.Legible.lines {form : Form} (h : form.Legible) (depth : Nat) :
    ∀ line ∈ form.lines depth, line.Legible :=
  Form.lines_legible h.name fun e he =>
    (h.entries e he).value.lines_of_under (h.entries e he).key ((h.entries e he).value.under _)

/-! ## What an outline tells -/

/-- A tree without its positions. -/
def Tree.unplaced : Tree → Tree :=
  Tree.move fun _ => .start

/-- An entry without its positions. -/
def Entry.unplaced : Entry → Entry :=
  Entry.move fun _ => .start

/-- A form without its positions. -/
def Form.unplaced : Form → Form :=
  Form.move fun _ => .start

theorem Form.unplaced_eq (form : Form) :
    form.unplaced = ⟨form.name, form.entries.map Entry.unplaced, .start⟩ := by
  obtain ⟨name, entries, p⟩ := form
  rw [unplaced, move, Entries.move_eq]
  rfl

theorem Tree.unplaced_array (items : List Tree) :
    (Tree.array items).unplaced = .array (items.map Tree.unplaced) := by
  show Tree.array (Trees.move _ items) = _
  rw [Trees.move_eq]
  rfl

/-- A row of entries has the same lines without positions, given that the values have. -/
theorem Entry.flatMap_lines_unplaced {es : List Entry} {depth : Nat}
    (h : ∀ e ∈ es, ∀ label, e.value.unplaced.lines depth label = e.value.lines depth label) :
    (es.map Entry.unplaced).flatMap (Entry.lines depth) = es.flatMap (Entry.lines depth) := by
  rw [List.flatMap_map]
  exact List.flatMap_congr fun e he => h e he _

/-- The same for a form. -/
theorem Form.lines_unplaced_of_values {form : Form} {depth : Nat}
    (h : ∀ e ∈ form.entries, ∀ label,
      e.value.unplaced.lines (depth + 1) label = e.value.lines (depth + 1) label) :
    form.unplaced.lines depth = form.lines depth := by
  rw [Form.lines_eq, Form.lines_eq, Form.unplaced_eq, Entry.flatMap_lines_unplaced h]

/-- **Positions do not show** in the lines of a value. -/
theorem Tree.lines_unplaced (tree : Tree) (depth : Nat) (label : String) :
    tree.unplaced.lines depth label = tree.lines depth label := by
  induction tree using Tree.induction generalizing depth label with
  | group form ih =>
    have hform : form.unplaced.lines (depth + 1) = form.lines (depth + 1) :=
      Form.lines_unplaced_of_values fun e he => ih e he _
    exact congrArg (⟨depth, label ++ "Group"⟩ :: ·) hform
  | array items ih =>
    have hitems : (items.map Tree.unplaced).flatMap (Tree.lines (depth + 1) "") =
        items.flatMap (Tree.lines (depth + 1) "") := by
      rw [List.flatMap_map]
      exact List.flatMap_congr fun item hitem => ih item hitem _ _
    rw [unplaced_array, lines_eq, lines_eq]
    exact congrArg (⟨depth, label ++ "Array"⟩ :: ·) hitems
  | expression form ih =>
    have hentries : (form.entries.map Entry.unplaced).flatMap (Entry.lines (depth + 1)) =
        form.entries.flatMap (Entry.lines (depth + 1)) :=
      Entry.flatMap_lines_unplaced fun e he => ih e he _
    show (Tree.expression form.unplaced).lines depth label = _
    rw [lines_eq, lines_eq, Form.unplaced_eq]
    exact congrArg (⟨depth, label ++ ("Expression " ++ form.name)⟩ :: ·) hentries
  | integer _ | float _ | string _ | bool _ | null | invalid => rfl

theorem Form.lines_unplaced (form : Form) (depth : Nat) :
    form.unplaced.lines depth = form.lines depth :=
  Form.lines_unplaced_of_values fun e _ => e.value.lines_unplaced _

/-- **Told by its lines**: among the legible values, no other of its kind has the same name or
literal and the same lines below, positions apart. -/
def Tree.Told (tree : Tree) : Prop :=
  ∀ tree', Alike tree tree' → tree.Legible → tree'.Legible → tree.detail = tree'.detail →
    ∀ depth, tree.under depth = tree'.under depth → tree.unplaced = tree'.unplaced

/-- Two legible values with the same lines are of one kind and say the same on the first line, so
it is left to what is told of that kind. -/
theorem Tree.Told.of_lines {tree tree' : Tree} (htold : tree.Told) (h : tree.Legible)
    (h' : tree'.Legible) {depth : Nat} {label : String}
    (heq : tree.lines depth label = tree'.lines depth label) : tree.unplaced = tree'.unplaced := by
  rw [lines_eq, lines_eq] at heq
  obtain ⟨hfirst, hunder⟩ := List.cons.inj heq
  obtain ⟨hkind, hdetail⟩ :=
    headline_inj ((String.append_right_inj _).mp (congrArg Line.text hfirst))
  exact htold tree' (alike_of_kind_eq hkind) h h' hdetail _ hunder

/-- A row of entries is told if their values are. -/
theorem Entry.map_unplaced_of_lines {es es' : List Entry} (h : ∀ e ∈ es, e.Legible)
    (h' : ∀ e ∈ es', e.Legible) (htold : ∀ e ∈ es, e.value.Told) {depth : Nat}
    (heq : es.flatMap (Entry.lines depth) = es'.flatMap (Entry.lines depth)) :
    es.map Entry.unplaced = es'.map Entry.unplaced := by
  refine Block.map_eq_of_rows (Entry.block_lines depth) ?_ heq
  rintro ⟨key, value, p⟩ he ⟨key', value', p'⟩ he' hlines
  -- with the same key, the lines of the entries are those of their values under one label
  have hfirst : label key ++ value.headline = label key' ++ value'.headline := by
    rw [Entry.lines, Entry.lines, Tree.lines_eq, Tree.lines_eq] at hlines
    exact congrArg Line.text (List.cons.inj hlines).1
  obtain rfl : key = key' := Outline.key_eq_of_label (h _ he).key (h' _ he').key hfirst
  have hvalue : value.unplaced = value'.unplaced :=
    (htold _ he).of_lines (h _ he).value (h' _ he').value hlines
  exact congrArg (Entry.mk key · .start) hvalue

/-- So is a form. -/
theorem Form.unplaced_of_lines {form form' : Form} (h : form.Legible) (h' : form'.Legible)
    (htold : ∀ e ∈ form.entries, e.value.Told) {depth : Nat}
    (heq : form.lines depth = form'.lines depth) : form.unplaced = form'.unplaced := by
  rw [Form.lines_eq, Form.lines_eq] at heq
  obtain ⟨hfirst, hrest⟩ := List.cons.inj heq
  have hname : form.name = form'.name :=
    (String.append_right_inj _).mp (congrArg Line.text hfirst)
  rw [Form.unplaced_eq, Form.unplaced_eq, hname,
    Entry.map_unplaced_of_lines h.entries h'.entries htold hrest]

/-- **Every value is told by its lines.** -/
theorem Tree.told (tree : Tree) : tree.Told := by
  -- what is compared with a value is of its kind, so one case each is left
  induction tree using Tree.induction with
  | group form ih =>
    intro tree' halike h h' _ depth hunder
    cases halike with
    | group form form' =>
      have hform : form.unplaced = form'.unplaced :=
        Form.unplaced_of_lines h.form h'.form ih hunder
      exact congrArg Tree.group hform
  | array items ih =>
    intro tree' halike h h' _ depth hunder
    cases halike with
    | array items items' =>
      have hitems : items.map Tree.unplaced = items'.map Tree.unplaced :=
        Block.map_eq_of_rows (fun item => item.block_lines depth "")
          (fun item hitem item' hitem' hlines =>
            (ih item hitem).of_lines (h.item hitem) (h'.item hitem') hlines) hunder
      rw [unplaced_array, unplaced_array, hitems]
  | expression form ih =>
    intro tree' halike h h' hdetail depth hunder
    cases halike with
    | expression form form' =>
      have hentries : form.entries.map Entry.unplaced = form'.entries.map Entry.unplaced :=
        Entry.map_unplaced_of_lines h.expressionForm.entries h'.expressionForm.entries ih hunder
      have hname : form.name = form'.name := Option.some.inj hdetail
      have hform : form.unplaced = form'.unplaced := by
        rw [Form.unplaced_eq, Form.unplaced_eq, hname, hentries]
      exact congrArg Tree.expression hform
  | integer i =>
    intro tree' halike _ _ hdetail _ _
    cases halike with
    | integer i j => rw [Numeral.ofInt64_text_inj (Option.some.inj hdetail)]
  | float x =>
    intro tree' halike h h' hdetail _ _
    cases halike with
    | float x y =>
      rw [Notation.document.text_inj h.isNaN h'.isNaN (Option.some.inj hdetail)]
  | string s =>
    intro tree' halike _ _ hdetail _ _
    cases halike with
    | string s s' => rw [Text.quote_inj (Option.some.inj hdetail)]
  | bool b =>
    intro tree' halike _ _ hdetail _ _
    cases halike with
    | bool b b' =>
      have hbool : ∀ b b' : Bool,
          (if b then "true" else "false") = (if b' then "true" else "false") → b = b' := by
        decide
      rw [hbool b b' (Option.some.inj hdetail)]
  | null =>
    intro tree' halike _ _ _ _ _
    cases halike
    rfl
  | invalid =>
    intro tree' halike _ _ _ _ _
    cases halike
    rfl

namespace Outline

/-- **Outlines of legible forms are told apart**, but for positions. -/
theorem map_unplaced_of_print {forms forms' : List Form} (h : ∀ form ∈ forms, form.Legible)
    (h' : ∀ form ∈ forms', form.Legible) (heq : print forms = print forms') :
    forms.map Form.unplaced = forms'.map Form.unplaced := by
  have hlines : forms.flatMap (Form.lines 0) = forms'.flatMap (Form.lines 0) :=
    printLines_inj (List.forall_mem_flatMap.mpr fun form hform => (h form hform).lines 0)
      (List.forall_mem_flatMap.mpr fun form hform => (h' form hform).lines 0) heq
  refine Block.map_eq_of_rows (Form.block_lines 0) ?_ hlines
  intro form hform form' hform' hblock
  exact Form.unplaced_of_lines (h form hform) (h' form' hform') (fun e _ => e.value.told) hblock

/-- **Positions do not show** in an outline. -/
theorem print_unplaced (forms : List Form) : print (forms.map Form.unplaced) = print forms := by
  rw [print, print, List.flatMap_map]
  simp only [Form.lines_unplaced]

end Outline

/-! ## What the parser makes -/

namespace Tree

/-- What the scanner takes for a word is one. -/
theorem isWord_of_isIdentifier {name : String} (h : Token.isIdentifier name.toList = true) :
    IsWord name := by
  intro c hc
  cases hname : name.toList with
  | nil =>
    rw [hname] at hc
    cases hc
  | cons d ds =>
    rw [hname, Token.isIdentifier, Bool.and_eq_true, Bool.and_eq_true] at h
    obtain ⟨⟨hstart, hparts⟩, -⟩ := h
    rw [hname] at hc
    rcases List.mem_cons.mp hc with rfl | hc
    -- what starts a word may also go on with it
    · rw [Token.isWordStart, Bool.or_eq_true] at hstart
      rw [Token.isWordPart, Char.isAlphanum, Bool.or_eq_true, Bool.or_eq_true]
      exact hstart.imp_left .inl
    · exact List.all_eq_true.mp hparts c hc

/-- A run of digits is a word in this sense too. -/
theorem isWord_of_isWritableKey {key : String} (h : isWritableKey key = true) : IsWord key := by
  rw [isWritableKey, Bool.or_eq_true] at h
  rcases h with hdigits | hword
  · rw [isDigits, Bool.and_eq_true] at hdigits
    intro c hc
    have hdigit : c.isDigit = true := List.all_eq_true.mp hdigits.2 c hc
    rw [Token.isWordPart, Char.isAlphanum, hdigit, Bool.or_true, Bool.true_or]
  · exact isWord_of_isIdentifier hword

/-- The name of a form, also where there is none. -/
theorem SpansName.isWord {name : String} {ts : List PlacedToken} (h : SpansName name ts)
    (hproper : ∀ t ∈ ts, t.token.Proper) : IsWord name := by
  cases h with
  -- no name is the empty word
  | missing => rintro c ⟨⟩
  | word name p =>
    have hname : (Token.identifier name).Proper := hproper ⟨.identifier name, p⟩ (by simp)
    exact isWord_of_isIdentifier (by rwa [String.toList_ofList])

/-- The key of an entry, if the parser has made one. -/
theorem SpansKey.isWord {key : Option String} {ts : List PlacedToken} (h : SpansKey key ts)
    (hproper : ∀ t ∈ ts, t.token.Proper) : ∀ k ∈ key, IsWord k := by
  cases h with
  | missing | signed _ _ => rintro k ⟨⟩
  | @key t text p h =>
    rintro k ⟨⟩
    exact isWord_of_isWritableKey (isWritableKey_of_isKey h (hproper ⟨t, p⟩ (by simp)))

/-- What it is for a part of a tree to be legible. -/
def Phrase.Legible : Phrase → Prop
  | value tree => tree.Legible
  | entry e => e.Legible
  | entries es => ∀ e ∈ es, e.Legible
  | items trees => ∀ tree ∈ trees, tree.Legible

/-- **Whatever the parser makes is legible**, faults included. -/
theorem Spans.legible {phrase : Phrase} {ts : List PlacedToken} (h : Spans phrase ts)
    (hproper : ∀ t ∈ ts, t.token.Proper) : phrase.Legible := by
  induction h with
  | scalar p h =>
    cases h with
    | integer _ => exact .integer _
    | float n => exact .float n.isNaN_toBinary64
    | string content => exact .string _
    | bool b => exact .bool b
    | null => exact .null
  | missing | outOfRange _ _ | tooDeep _ _ => exact .invalid
  | group p hname hsep hes hclose ih =>
    simp only [List.forall_mem_cons, List.forall_mem_append] at hproper
    obtain ⟨-, hword, -, hts, -⟩ := hproper
    exact Form.Legible.group ⟨hname.isWord hword, ih hts⟩
  | array p hitems hclose ih =>
    simp only [List.forall_mem_cons, List.forall_mem_append] at hproper
    exact .array (ih hproper.2.1)
  | expression p hname hes hclose ih =>
    simp only [List.forall_mem_cons, List.forall_mem_append] at hproper
    obtain ⟨-, hword, hts, -⟩ := hproper
    exact Form.Legible.expression ⟨hname.isWord hword, ih hts⟩
  | plain h ih => exact ⟨by simp, ih hproper⟩
  | keyed p hkey h ih =>
    simp only [List.forall_mem_cons, List.forall_mem_append] at hproper
    exact ⟨hkey.isWord hproper.2.1, ih hproper.2.2⟩
  | noEntries => rintro e ⟨⟩
  | moreEntries he hsep hes ihe ihes =>
    simp only [List.forall_mem_append] at hproper
    exact List.forall_mem_cons.mpr ⟨ihe hproper.1, ihes hproper.2.2⟩
  | noItems => rintro tree ⟨⟩
  | moreItems he hsep hitems ihe ihitems =>
    simp only [List.forall_mem_append] at hproper
    exact List.forall_mem_cons.mpr ⟨(ihe hproper.1).value, ihitems hproper.2.2⟩

/-- Tokens that start no group add no form, and each group adds a legible one. -/
theorem SpansText.legible {forms : List Form} {ts : List PlacedToken} (h : SpansText forms ts)
    (hproper : ∀ t ∈ ts, t.token.Proper) : ∀ form ∈ forms, form.Legible := by
  induction h with
  | done => rintro form ⟨⟩
  | stray h hforms ih => exact ih (List.forall_mem_cons.mp hproper).2
  | group hform hforms ih =>
    obtain ⟨hts, hus⟩ := List.forall_mem_append.mp hproper
    exact List.forall_mem_cons.mpr ⟨Legible.form (hform.legible hts), ih hus⟩

end Tree

namespace Parsed

theorem legible_forms (text : String) : ∀ form ∈ (ofText text).forms, form.Legible :=
  (Tree.tops_takes _ _).2.1.legible (Token.scan_sound text).1

/-- **An outline loses nothing but positions**: two texts, with or without faults, have the same
outline exactly if their forms are the same with all positions left out. -/
theorem outline_eq_iff (text text' : String) :
    Outline.print (ofText text).forms = Outline.print (ofText text').forms ↔
      (ofText text).forms.map Form.unplaced = (ofText text').forms.map Form.unplaced := by
  constructor
  · exact Outline.map_unplaced_of_print (legible_forms text) (legible_forms text')
  · intro h
    rw [← Outline.print_unplaced, h, Outline.print_unplaced]

end Parsed

end DataLisp
