/-
Reading a written document gives it back.

The tokens of a value are derived by the grammar, as a tree that nests exactly as deep as
the value does, holds no expression, and builds the value without a note, whatever the
expressions at hand (`Value.StandsIn`). That is the whole connection between writing and
reading; it is shown by induction on the value. In a group the anonymous entries come
first, so each of them is pushed, and then the named ones, whose keys are new because the
keys of the group are distinct.

With the scanner undoing the layout and the parser finding what is derived, a document that
nests within the allowed depth is read back as it was. A deeper one is refused, with one
error for each group or array that lies too deep and no other.
-/
import DataLisp.Document.Reading
import DataLisp.Proofs.Layout
import DataLisp.Proofs.Soundness

set_option autoImplicit false

namespace DataLisp

open DataLisp.Tree

/-! ## Keys -/

theorem isKey_ofKey (key : String) : IsKey (Token.ofKey key) key := by
  rw [Token.ofKey]
  split
  · rename_i hdigits
    have htext : (Numeral.mk none key.toList none none).text = key := by
      simp [Numeral.text, Numeral.chars, Sign.chars, Numeral.fractionChars, Numeral.exponentChars]
    have hunsigned : (Numeral.mk none key.toList none none).isUnsigned = true := by
      simp only [isDigits, Bool.and_eq_true] at hdigits
      simp [Numeral.isUnsigned, Numeral.isInteger, hdigits.1]
    have hkey := IsKey.number hunsigned
    rwa [htext] at hkey
  · have hkey := IsKey.word key.toList
    rwa [String.ofList_toList] at hkey

/-! ## Values -/

/-- A row of tokens stands for a value: it is derived, as a tree without expressions that is
as deep as the value and builds it, whatever the handlers, without a note. -/
def Value.StandsIn (v : Value) (ts : List PlacedToken) : Prop :=
  ∃ tree, Derives (.value tree) ts ∧ tree.depth = v.depth ∧ tree.isExpression = false ∧
    ∀ registry, tree.build registry = pure v

theorem isDropped_eq_false {key : Option String} {tree : Tree} (v : Value)
    (h : tree.isExpression = false) : isDropped key tree v = false := by
  rw [isDropped, h, Bool.and_false, Bool.false_and]

section Build

variable {registry : Registry} {g : Group} {key : Option String} {tree : Tree} {v : Value}
  {p : Position} {es : List Entry}

/-- One entry whose value is built without a note. -/
theorem build_cons (htree : tree.build registry = pure v) (hplain : tree.isExpression = false) :
    Entries.build registry g (⟨key, tree, p⟩ :: es) =
      (addEntry g ⟨key, v⟩ p >>= fun g => Entries.build registry g es) := by
  rw [Entries.build, htree, pure_bind, isDropped_eq_false v hplain]
  rfl

theorem build_anonymous (htree : tree.build registry = pure v)
    (hplain : tree.isExpression = false) :
    Entries.build registry g (⟨none, tree, p⟩ :: es) = Entries.build registry (g.push v) es := by
  rw [build_cons htree hplain]
  rfl

theorem build_named {key : String} (htree : tree.build registry = pure v)
    (hplain : tree.isExpression = false) (hnew : key ∉ OrderedMap.keys g.named) :
    Entries.build registry g (⟨some key, tree, p⟩ :: es) =
      Entries.build registry { g with named := g.named ++ [(key, v)] } es := by
  have hreplaced : g.replaced? ⟨some key, v⟩ = none := by
    rw [Group.replaced?, Option.bind_some, Group.get?, OrderedMap.get?_eq_none_iff.mpr hnew]
    rfl
  rw [build_cons htree hplain, addEntry, hreplaced]
  show Entries.build registry (g.insert key v) es = _
  rw [Group.insert, OrderedMap.insert_of_not_mem hnew]

end Build

/-- Anonymous entries in front of a row of entries are derived, and building pushes their
values in order before it goes on with the row. -/
theorem anonymous_standIn {vs : List Value}
    (hvs : ∀ v ∈ vs, ∀ ts : List PlacedToken, ts.map PlacedToken.token = v.tokens → v.StandsIn ts)
    {ts us : List PlacedToken} (hts : ts.map PlacedToken.token = Values.tokens vs)
    {es : List Entry} (hes : Derives (.entries es) us) :
    ∃ front, Derives (.entries (front ++ es)) (ts ++ us) ∧
      Entries.depth (front ++ es) = max (Values.depth vs) (Entries.depth es) ∧
      ∀ registry g, Entries.build registry g (front ++ es) =
        Entries.build registry { g with anonymous := g.anonymous ++ vs } es := by
  induction vs generalizing ts with
  | nil =>
    rw [Values.tokens, List.map_eq_nil_iff] at hts
    subst hts
    refine ⟨[], hes, (Nat.zero_max _).symm, ?_⟩
    intro registry g
    obtain ⟨id, named, anonymous⟩ := g
    rw [List.nil_append, List.append_nil]
  | cons v vs ih =>
    rw [Values.tokens, List.map_eq_append_iff] at hts
    obtain ⟨ts, ts', rfl, hv, hrest⟩ := hts
    rw [List.forall_mem_cons] at hvs
    obtain ⟨tree, hderives, hdepth, hplain, hbuild⟩ := hvs.1 ts hv
    obtain ⟨front, hfront, hfrontDepth, hfrontBuild⟩ := ih hvs.2 hrest
    -- an entry without a key has the position of its first token
    obtain ⟨t, ts, rfl, -, -⟩ := hderives.value_starts
    refine ⟨⟨none, tree, t.position⟩ :: front, ?_, ?_, ?_⟩
    · have hmore := Derives.moreEntries (.plain hderives) .absent hfront
      rwa [List.nil_append, ← List.append_assoc] at hmore
    · rw [List.cons_append, Entries.depth, hfrontDepth, hdepth, Values.depth, Nat.max_assoc]
    · intro registry g
      rw [List.cons_append, build_anonymous (hbuild registry) hplain, hfrontBuild, Group.push,
        List.append_assoc, List.singleton_append]

/-- Named entries with new keys are derived, and building adds them in order. -/
theorem named_standIn {named : List (String × Value)}
    (hnamed : ∀ entry ∈ named, ∀ ts : List PlacedToken,
      ts.map PlacedToken.token = entry.2.tokens → entry.2.StandsIn ts)
    {ts : List PlacedToken} (hts : ts.map PlacedToken.token = Named.tokens named) :
    ∃ es, Derives (.entries es) ts ∧ Entries.depth es = Named.depth named ∧
      ∀ registry g, (OrderedMap.keys (g.named ++ named)).Nodup →
        Entries.build registry g es = pure { g with named := g.named ++ named } := by
  induction named generalizing ts with
  | nil =>
    rw [Named.tokens, List.map_eq_nil_iff] at hts
    subst hts
    refine ⟨[], .noEntries, rfl, ?_⟩
    intro registry g _
    obtain ⟨id, named, anonymous⟩ := g
    rw [Entries.build, List.append_nil]
  | cons entry named ih =>
    obtain ⟨key, v⟩ := entry
    rw [Named.tokens, List.map_eq_cons_iff] at hts
    obtain ⟨⟨first, p⟩, ts, rfl, hcolon, hts⟩ := hts
    rw [List.map_eq_cons_iff] at hts
    obtain ⟨⟨keyToken, q⟩, ts, rfl, hkey, hts⟩ := hts
    rw [List.map_eq_append_iff] at hts
    obtain ⟨ts, ts', rfl, hv, hrest⟩ := hts
    cases hcolon
    cases hkey
    rw [List.forall_mem_cons] at hnamed
    obtain ⟨tree, hderives, hdepth, hplain, hbuild⟩ := hnamed.1 ts hv
    obtain ⟨es, hes, hesDepth, hesBuild⟩ := ih hnamed.2 hrest
    refine ⟨⟨some key, tree, p⟩ :: es, ?_, ?_, ?_⟩
    · rw [← List.cons_append, ← List.cons_append]
      exact .moreEntries (.keyed p q (isKey_ofKey key) hderives) .absent hes
    · rw [Entries.depth, hdepth, hesDepth, Named.depth]
    · intro registry g hkeys
      have hnew : key ∉ OrderedMap.keys g.named := OrderedMap.not_mem_keys_of_nodup hkeys
      rw [List.append_cons] at hkeys ⊢
      rw [build_named (hbuild registry) hplain hnew, hesBuild registry _ hkeys]

theorem items_standIn {items : List Item}
    (hitems : ∀ d ∈ items, ∀ ts : List PlacedToken,
      ts.map PlacedToken.token = d.value.tokens → d.value.StandsIn ts)
    (hkeys : ∀ d ∈ items, d.key = none)
    {ts : List PlacedToken} (hts : ts.map PlacedToken.token = Items.tokens items) :
    ∃ trees, Derives (.items trees) ts ∧ Trees.depth trees = Items.depth items ∧
      ∀ registry, Trees.build registry trees = pure items := by
  induction items generalizing ts with
  | nil =>
    rw [Items.tokens, List.map_eq_nil_iff] at hts
    subst hts
    exact ⟨[], .noItems, rfl, fun _ => rfl⟩
  | cons d items ih =>
    obtain ⟨key, v⟩ := d
    rw [Items.tokens, List.map_eq_append_iff] at hts
    obtain ⟨ts, ts', rfl, hv, hrest⟩ := hts
    rw [List.map_eq_append_iff] at hrest
    obtain ⟨sep, ts', rfl, hsep, hrest⟩ := hrest
    -- the writer puts a comma after every item but the last
    have hcomma : Comma sep := by
      split at hsep
      · rw [List.map_eq_nil_iff] at hsep
        subst hsep
        exact .absent
      · rw [List.map_eq_singleton_iff] at hsep
        obtain ⟨⟨token, p⟩, rfl, hcomma⟩ := hsep
        cases hcomma
        exact .present p
    rw [List.forall_mem_cons] at hitems hkeys
    obtain ⟨tree, hderives, hdepth, hplain, hbuild⟩ := hitems.1 ts hv
    obtain ⟨trees, htrees, htreesDepth, htreesBuild⟩ := ih hitems.2 hkeys.2 hrest
    refine ⟨tree :: trees, .moreItems hderives hcomma htrees, ?_, ?_⟩
    · rw [Trees.depth, hdepth, htreesDepth, Items.depth]
    · intro registry
      have hkey : key = none := hkeys.1
      rw [Trees.build, hbuild, pure_bind, htreesBuild, pure_bind, isDropped_eq_false v hplain, hkey]
      rfl

theorem scalar_standsIn {token : Token} {tree : Tree} {v : Value} (hscalar : IsScalar token tree)
    (hdepth : tree.depth = v.depth) (hplain : tree.isExpression = false)
    (hbuild : ∀ registry, tree.build registry = pure v) {ts : List PlacedToken}
    (hts : ts.map PlacedToken.token = [token]) : v.StandsIn ts := by
  rw [List.map_eq_singleton_iff] at hts
  obtain ⟨⟨t, p⟩, rfl, rfl⟩ := hts
  exact ⟨tree, .scalar p hscalar, hdepth, hplain, hbuild⟩

/-- A group stands for itself if its entries do. -/
theorem group_standsIn {g : Group} (hid : g.id ≠ "") (hkeys : (OrderedMap.keys g.named).Nodup)
    (hanonymous : ∀ v ∈ g.anonymous, ∀ ts : List PlacedToken,
      ts.map PlacedToken.token = v.tokens → v.StandsIn ts)
    (hnamed : ∀ entry ∈ g.named, ∀ ts : List PlacedToken,
      ts.map PlacedToken.token = entry.2.tokens → entry.2.StandsIn ts)
    {ts : List PlacedToken} (hts : ts.map PlacedToken.token = (Value.group g).tokens) :
    (Value.group g).StandsIn ts := by
  obtain ⟨id, named, anonymous⟩ := g
  -- the text is cut at the parentheses, the id, and the first named entry
  rw [Value.tokens, Group.tokens, List.map_eq_cons_iff] at hts
  obtain ⟨⟨token, p⟩, ts, rfl, htoken, hts⟩ := hts
  cases htoken
  rw [List.map_eq_cons_iff] at hts
  obtain ⟨⟨token, q⟩, ts, rfl, htoken, hts⟩ := hts
  cases htoken
  rw [List.map_eq_append_iff] at hts
  obtain ⟨ts, ts', rfl, hvs, hts⟩ := hts
  rw [List.map_eq_append_iff] at hts
  obtain ⟨ts', last, rfl, hentries, hlast⟩ := hts
  rw [List.map_eq_singleton_iff] at hlast
  obtain ⟨⟨token, r⟩, rfl, htoken⟩ := hlast
  cases htoken
  obtain ⟨es, hes, hesDepth, hesBuild⟩ := named_standIn hnamed hentries
  obtain ⟨front, hfront, hfrontDepth, hfrontBuild⟩ := anonymous_standIn hanonymous hvs hes
  have hgroup := Derives.group id.toList p q r .absent hfront
  rw [String.ofList_toList, List.nil_append, List.append_assoc] at hgroup
  refine ⟨_, hgroup, ?_, rfl, ?_⟩
  · rw [Tree.depth, Form.depth, hfrontDepth, hesDepth, Value.depth, Group.depth]
  · intro registry
    rw [Tree.build, Form.build, Group.ofId, Group.resolveId_of_ne hid, hfrontBuild,
      hesBuild registry ⟨id, [], [] ++ anonymous⟩ hkeys, pure_bind]
    rfl

theorem array_standsIn {items : List Item} (hkeys : ∀ d ∈ items, d.key = none)
    (hitems : ∀ d ∈ items, ∀ ts : List PlacedToken,
      ts.map PlacedToken.token = d.value.tokens → d.value.StandsIn ts)
    {ts : List PlacedToken} (hts : ts.map PlacedToken.token = (Value.array items).tokens) :
    (Value.array items).StandsIn ts := by
  rw [Value.tokens, List.map_eq_cons_iff] at hts
  obtain ⟨⟨token, p⟩, ts, rfl, htoken, hts⟩ := hts
  cases htoken
  rw [List.map_eq_append_iff] at hts
  obtain ⟨ts, last, rfl, hts, hlast⟩ := hts
  rw [List.map_eq_singleton_iff] at hlast
  obtain ⟨⟨token, r⟩, rfl, htoken⟩ := hlast
  cases htoken
  obtain ⟨trees, htrees, htreesDepth, htreesBuild⟩ := items_standIn hitems hkeys hts
  refine ⟨.array trees, .array p r htrees, ?_, rfl, ?_⟩
  · rw [Tree.depth, htreesDepth, Value.depth]
  · intro registry
    rw [Tree.build, htreesBuild, pure_bind]

/-- **The tokens of a value stand for it**, if everything in it is well made and can be
written. -/
theorem Value.standsIn (v : Value) (hmade : ∀ w ∈ v.values, w.WellMade)
    (hwritable : ∀ w ∈ v.values, w.Writable) (ts : List PlacedToken)
    (hts : ts.map PlacedToken.token = v.tokens) : v.StandsIn ts := by
  induction v using Value.induction generalizing ts with
  | null => exact scalar_standsIn .null rfl rfl (fun _ => rfl) hts
  | string s =>
    have hscalar := IsScalar.string s.toList
    rw [String.ofList_toList] at hscalar
    exact scalar_standsIn hscalar rfl rfl (fun _ => rfl) hts
  | integer i =>
    exact scalar_standsIn (.integer (Numeral.toInt64?_ofInt64 i)) rfl rfl (fun _ => rfl) hts
  | float x =>
    have hx : x.isFinite = true := hwritable (.float x) List.mem_cons_self
    have hscalar := IsScalar.float (Notation.document.numeral x)
    -- the one place where the digits of a float matter: they read back as the same float
    rw [Notation.toBinary64_numeral _ hx] at hscalar
    exact scalar_standsIn hscalar rfl rfl (fun _ => rfl) hts
  | bool b => exact scalar_standsIn (.bool b) rfl rfl (fun _ => rfl) hts
  | group g ihanonymous ihnamed =>
    obtain ⟨⟨hid, hkeys⟩, hinside⟩ := forall_values_group.mp hmade
    obtain ⟨hanonymous, hnamed⟩ := forall_values_inside.mp hinside
    obtain ⟨-, hinside'⟩ := forall_values_group.mp hwritable
    obtain ⟨hanonymous', hnamed'⟩ := forall_values_inside.mp hinside'
    exact group_standsIn hid hkeys
      (fun v h => ihanonymous v h (hanonymous v h) (hanonymous' v h))
      (fun entry h => ihnamed entry h (hnamed entry h) (hnamed' entry h)) hts
  | array items ih =>
    obtain ⟨hkeys, hitems⟩ := forall_values_array.mp hmade
    obtain ⟨-, hitems'⟩ := forall_values_array.mp hwritable
    exact array_standsIn hkeys (fun d h => ih d h (hitems d h) (hitems' d h)) hts

/-! ## Documents -/

/-- Only a group builds a group, unless it is an expression. -/
theorem group_of_standsIn {g : Group} {ts : List PlacedToken} (h : (Value.group g).StandsIn ts) :
    ∃ form, Derives (.value (.group form)) ts ∧ form.depth = g.depth ∧
      ∀ registry, form.build registry = pure g := by
  obtain ⟨tree, hderives, hdepth, hplain, hbuild⟩ := h
  have hvalue : (tree.build .empty).value = .group g := by rw [hbuild]; rfl
  cases tree with
  | group form =>
    refine ⟨form, hderives, Nat.succ.inj hdepth, ?_⟩
    intro registry
    have hform := hbuild registry
    rw [Tree.build] at hform
    -- building the tree is building the form, value and notes alike
    have hnotes : (form.build registry).notes ++ [] = [] := congrArg Noted.notes hform
    have hgroup : Value.group (form.build registry).value = .group g := congrArg Noted.value hform
    rw [List.append_nil] at hnotes
    cases hgroup
    show form.build registry = ⟨(form.build registry).value, []⟩
    rw [← hnotes]
  | expression form => cases hplain
  | array _ | integer _ | float _ | string _ | bool _ | null | invalid => cases hvalue

/-- **The tokens of a document are derived**, as forms that nest as deep as its groups and
build it without a diagnostic. -/
theorem Document.standsIn {doc : Document} (hmade : doc.WellMade)
    (hwritable : ∀ w ∈ doc.values, w.Writable) {ts : List PlacedToken}
    (hts : ts.map PlacedToken.token = doc.tokens) :
    ∃ forms, DerivesText forms ts ∧ forms.map Form.depth = doc.map Group.depth ∧
      ∀ registry, (Document.ofForms registry forms).value = doc ∧
        (Document.ofForms registry forms).diagnostics = [] := by
  rw [Document.WellMade, forall_values_document] at hmade
  rw [forall_values_document] at hwritable
  induction doc generalizing ts with
  | nil =>
    rw [Document.tokens, List.flatMap_nil, List.map_eq_nil_iff] at hts
    subst hts
    exact ⟨[], .done, rfl, fun _ => ⟨rfl, rfl⟩⟩
  | cons g doc ih =>
    rw [Document.tokens, List.flatMap_cons, List.map_eq_append_iff] at hts
    obtain ⟨ts, us, rfl, hg, hdoc⟩ := hts
    rw [List.forall_mem_cons] at hmade hwritable
    obtain ⟨form, hderives, hdepth, hbuild⟩ :=
      group_of_standsIn ((Value.group g).standsIn hmade.1 hwritable.1 ts hg)
    obtain ⟨forms, hforms, hformsDepth, hformsBuild⟩ := ih hmade.2 hwritable.2 hdoc
    refine ⟨form :: forms, .more hderives hforms, ?_, ?_⟩
    · rw [List.map_cons, List.map_cons, hdepth, hformsDepth]
    · intro registry
      obtain ⟨hvalue, hdiagnostics⟩ := hformsBuild registry
      rw [Document.ofForms, hbuild, pure_bind]
      refine ⟨?_, ?_⟩
      · rw [← hvalue]
        rfl
      · rw [← hdiagnostics]
        show List.filterMap BuildNote.diagnostic? (_ :: (_ ++ [])) = _
        rw [List.append_nil]
        rfl

/-- Forms that nest as deep as the groups do keep within the same bounds. -/
theorem forall_depth_iff {forms : List Form} {doc : Document}
    (h : forms.map Form.depth = doc.map Group.depth) (n : Nat) :
    (∀ form ∈ forms, form.depth ≤ n) ↔ ∀ g ∈ doc, g.depth ≤ n := by
  rw [← List.forall_mem_map (f := Form.depth) (P := (· ≤ n)), h, List.forall_mem_map]

/-! ## Reading -/

namespace Document

/-- What reading a text comes to, apart from the log. -/
theorem readWith_value (registry : Registry) (text : String) :
    (readWith registry text).value =
      if (Parsed.ofText text).diagnostics.hasErrors then
        .error (.malformed (Parsed.ofText text).diagnostics)
      else if (ofForms registry (Parsed.ofText text).forms).diagnostics.hasErrors then
        .error (.unbuildable (ofForms registry (Parsed.ofText text).forms).diagnostics)
      else .ok (ofForms registry (Parsed.ofText text).forms).value := by
  rw [readWith, Noted.value_bind]
  show Noted.value (if (Parsed.ofText text).diagnostics.hasErrors then _ else _ : Logged _) = _
  split
  · rfl
  · show Noted.value (if (ofForms registry (Parsed.ofText text).forms).diagnostics.hasErrors
      then _ else _ : Logged _) = _
    split <;> rfl

/-- A text is read if neither its structure nor building it has errors, and gives what its forms
build. -/
theorem readWith_eq_ok_iff {registry : Registry} {text : String} {doc : Document} :
    (readWith registry text).value = .ok doc ↔
      (Parsed.ofText text).diagnostics.hasErrors = false ∧
        (ofForms registry (Parsed.ofText text).forms).diagnostics.hasErrors = false ∧
          (ofForms registry (Parsed.ofText text).forms).value = doc := by
  rw [readWith_value]
  split
  · rename_i hparsed
    simp [hparsed]
  split
  · rename_i hbuilt
    simp [hbuilt]
  · rename_i hparsed hbuilt
    simp [hparsed, hbuilt]

theorem readWith_of_quiet {registry : Registry} {text : String} {doc : Document}
    (hparsed : (Parsed.ofText text).diagnostics = [])
    (hbuilt : (ofForms registry (Parsed.ofText text).forms).diagnostics = [])
    (hvalue : (ofForms registry (Parsed.ofText text).forms).value = doc) :
    (readWith registry text).value = .ok doc := by
  rw [readWith_value, hparsed, hbuilt, hvalue]
  rfl

/-- **A written document that nests within the allowed depth is read back**, without a
diagnostic, whatever the handlers. -/
theorem readBack_shallow {doc : Document} {indent : Nat} {text : String} (hmade : doc.WellMade)
    (hwrite : doc.write indent = .ok text) (hdepth : ∀ g ∈ doc, g.depth ≤ maxDepth)
    (registry : Registry) :
    (Parsed.ofText text).diagnostics = [] ∧
      (ofForms registry (Parsed.ofText text).forms).diagnostics = [] ∧
      (readWith registry text).value = .ok doc := by
  obtain ⟨hwritable, rfl⟩ := write_eq_ok_iff.mp hwrite
  obtain ⟨htokens, hspelling⟩ := scan_layout hwritable indent
  obtain ⟨forms, hforms, hformsDepth, hbuild⟩ := standsIn hmade hwritable htokens
  have hshallow := (forall_depth_iff hformsDepth maxDepth).mpr hdepth
  have hparsed := Parsed.complete_shallow hspelling hforms hshallow
  obtain ⟨hvalue, hdiagnostics⟩ := hbuild registry
  have hquiet : (Parsed.ofText (doc.layout indent)).diagnostics = [] := by rw [hparsed]
  have hformsEq : (Parsed.ofText (doc.layout indent)).forms = forms := by rw [hparsed]
  rw [← hformsEq] at hvalue hdiagnostics
  exact ⟨hquiet, hdiagnostics, readWith_of_quiet hquiet hdiagnostics hvalue⟩

/-- **A written document that nests deeper is refused**, and all that is reported is what lies
too deep. -/
theorem readBack_deep {doc : Document} {indent : Nat} {text : String} (hmade : doc.WellMade)
    (hwrite : doc.write indent = .ok text) (hdepth : ∃ g ∈ doc, maxDepth < g.depth)
    (registry : Registry) :
    ∃ ds, (readWith registry text).value = .error (.malformed ds) ∧ ds.hasErrors = true ∧
      ∀ d ∈ ds, ∃ p, d = Problem.tooDeep.report p := by
  obtain ⟨hwritable, rfl⟩ := write_eq_ok_iff.mp hwrite
  obtain ⟨htokens, hspelling⟩ := scan_layout hwritable indent
  obtain ⟨forms, hforms, hformsDepth, -⟩ := standsIn hmade hwritable htokens
  have hparsed := Parsed.complete hspelling hforms
  -- if nothing were reported, every form would be shallow, and so every group
  have hdeep : (Parsed.ofText (doc.layout indent)).diagnostics.hasErrors = true := by
    by_contra hquiet
    rw [Bool.not_eq_true,
      Diagnostics.hasErrors_eq_false_iff (Parsed.diagnostics_isError _), hparsed,
      Parsed.deepNotes_eq_nil_iff hforms, forall_depth_iff hformsDepth] at hquiet
    obtain ⟨g, hg, hlt⟩ := hdepth
    exact absurd (hquiet g hg) (Nat.not_le.mpr hlt)
  refine ⟨(Parsed.ofText (doc.layout indent)).diagnostics, ?_, hdeep, ?_⟩
  · rw [readWith_value, if_pos hdeep]
  · intro d hd
    rw [hparsed] at hd
    obtain ⟨p, -, rfl⟩ := List.mem_map.mp hd
    exact ⟨p, rfl⟩

/-- **Writing and reading.** A document that the operations of the model have built and that
has a text is read back from it, the same in every bit and without a diagnostic, with any
handlers and for any indentation, as long as nothing lies deeper than allowed; and where
something does, the text is refused, and all errors are about depth. -/
theorem readWith_write (registry : Registry) {doc : Document} (hmade : doc.Made) {indent : Nat}
    {text : String} (hwrite : doc.write indent = .ok text) :
    ((∀ g ∈ doc, g.depth ≤ maxDepth) →
      (Parsed.ofText text).diagnostics = [] ∧
        (ofForms registry (Parsed.ofText text).forms).diagnostics = [] ∧
        (readWith registry text).value = .ok doc) ∧
    ((∃ g ∈ doc, maxDepth < g.depth) →
      ∃ ds, (readWith registry text).value = .error (.malformed ds) ∧ ds.hasErrors = true ∧
        ∀ d ∈ ds, ∃ p, d = Problem.tooDeep.report p) :=
  ⟨fun hdepth => readBack_shallow hmade.wellMade hwrite hdepth registry,
    fun hdepth => readBack_deep hmade.wellMade hwrite hdepth registry⟩

/-- A document that is read back, and one that is refused for an array 257 levels down. -/
theorem readWith_write_shallow_and_deep :
    (readWith .standard "(a\n  [1]\n  :k -0.0\n)\n").value =
        .ok [⟨"a", [("k", .float (.zero true))], [.array [⟨none, .integer 1⟩]]⟩] ∧
      ∃ ds, (readWith .standard (layout 2
        [⟨"a", [], [(fun v => .array [⟨none, v⟩])^[257] .null]⟩])).value =
          .error (.malformed ds) := by
  have hflat : Document.Made
      [⟨"a", [("k", .float (.zero true))], [.array [⟨none, .integer 1⟩]]⟩] := by
    refine List.forall_mem_singleton.mpr ?_
    have hitems := Made.noItems.pushItem (d := ⟨none, .integer 1⟩) (.integer 1)
    exact ((Made.ofId "a").push (.array hitems)).insert "k" (.float _)
  have hnested : ∀ n, DataLisp.Made (.value ((fun v => .array [⟨none, v⟩])^[n] .null)) := by
    intro n
    induction n with
    | zero => exact .null
    | succ n ih =>
      rw [Function.iterate_succ_apply']
      exact .array (Made.noItems.pushItem (d := ⟨none, _⟩) ih)
  have hdeep : Document.Made [⟨"a", [], [(fun v => .array [⟨none, v⟩])^[257] .null]⟩] :=
    List.forall_mem_singleton.mpr ((Made.ofId "a").push (hnested 257))
  have hwrite : write 2 [⟨"a", [("k", .float (.zero true))], [.array [⟨none, .integer 1⟩]]⟩] =
      .ok "(a\n  [1]\n  :k -0.0\n)\n" := by rfl
  have hwriteDeep : write 2 [⟨"a", [], [(fun v => .array [⟨none, v⟩])^[257] .null]⟩] =
      .ok (layout 2 [⟨"a", [], [(fun v => .array [⟨none, v⟩])^[257] .null]⟩]) :=
    write_eq_ok_iff.mpr ⟨offences_eq_nil_iff.mp (by decide +kernel), rfl⟩
  have hread := (readWith_write .standard hflat hwrite).1 (by decide +kernel)
  have hrefused := (readWith_write .standard hdeep hwriteDeep).2
    ⟨_, List.mem_cons_self, by decide +kernel⟩
  obtain ⟨ds, hds, -⟩ := hrefused
  exact ⟨hread.2.2, ds, hds⟩

end Document

end DataLisp
