/-
What building reports.

The standard handlers report faults of their arguments, except for the one that prints, which
reports its message and nothing else (`faults_standard`). No handler warns, so the warnings are
those of keys that come again, and no fault says that an expression is unknown, so that is said of
expressions without a handler only (`Form.reports_standard`). With this the diagnostics of a
document can be told apart, and each sort is read off the occasions of its trees: the warnings
belong to the keys that come again (`Document.duplicates_warned`), and everything else to the
expressions, in the order in which they are evaluated (`Document.evaluates_once`).
-/
import DataLisp.Proofs.Building

set_option autoImplicit false

namespace DataLisp

/-! ## What the standard handlers report -/

/-- Whether a diagnostic says that an expression is unknown. -/
def Diagnostic.isUnknown (d : Diagnostic) : Bool :=
  d.isError && "unknown expression".toList.isPrefixOf d.message.toList

/-- A report on arguments: an error, and not that the expression is unknown. -/
def Report.IsFault (r : Report) : Prop :=
  r.level = .error ∧ "unknown expression".toList.isPrefixOf r.message.toList = false

/-- A result whose notes are faults. -/
def Noted.Faulty {α : Type} (x : Noted Report α) : Prop :=
  ∀ r ∈ x.notes, r.IsFault

namespace Noted.Faulty

variable {α β : Type}

theorem pure (a : α) : Faulty (Pure.pure a : Noted Report α) :=
  fun _ hr => nomatch hr

theorem note {r : Report} (h : r.IsFault) : Faulty (Noted.note r) := by
  intro r' hr
  rw [List.mem_singleton.mp hr]
  exact h

/-- In a sequence the faults of the steps come together. -/
theorem bind {x : Noted Report α} {f : α → Noted Report β} (hx : x.Faulty)
    (hf : ∀ a, (f a).Faulty) : Faulty (x >>= f) := by
  intro r hr
  rw [Noted.notes_bind] at hr
  exact (List.mem_append.mp hr).elim (hx r) (hf x.value r)

/-- Doing the same with each argument of a list notes nothing but faults. -/
theorem mapM {f : α → Noted Report β} (hf : ∀ a, (f a).Faulty) (as : List α) :
    Faulty (as.mapM f) := by
  induction as with
  | nil => exact .pure []
  | cons a rest ih =>
    rw [List.mapM_cons]
    exact (hf a).bind fun _ => ih.bind fun _ => .pure _

end Noted.Faulty

/-- A value without truth is a fault: it cannot be converted. -/
theorem Value.faulty_truth (v : Value) : v.truth.Faulty := by
  have hkind : ∀ kind : Kind, Report.IsFault
      (.error ("cannot convert '" ++ kind.name ++ "' to '" ++ Kind.bool.name ++ "'")) := by
    rintro (_ | _) <;> exact ⟨rfl, by decide⟩
  cases v with
  | bool _ | integer _ | float _ => exact .pure _
  | null | string _ | group _ | array _ => exact (Noted.Faulty.note (hkind _)).bind fun _ => .pure _

/-- A handler that reports nothing but faults. -/
def Handler.Faults (handler : Handler) : Prop :=
  ∀ call, (handler call).Faulty

namespace Expression

open Noted (Faulty)

/-- A choice reports nothing of its own, but that the condition has no truth. -/
theorem faulty_choose (condition yes : Item) (no : Option Item) :
    (choose condition yes no).Faulty := by
  refine condition.value.faulty_truth.bind fun truth => ?_
  match truth with
  | some true | some false | none => exact .pure _

/-- A wrong number of arguments is a fault too. -/
theorem faults_if : Handler.Faults ifHandler := by
  intro call
  unfold ifHandler
  split
  · exact faulty_choose _ _ none
  · exact faulty_choose _ _ (some _)
  · exact (Faulty.note ⟨rfl, by decide⟩).bind fun _ => .pure _

theorem faulty_negate (d : Item) : (negate d).Faulty :=
  d.value.faulty_truth.bind fun _ => .pure _

theorem faults_not : Handler.Faults notHandler := by
  intro call
  unfold notHandler
  split
  · exact .pure _
  · exact faulty_negate _
  · exact (Faulty.mapM faulty_negate _).bind fun _ => .pure _

/-- Conditions are looked at one by one, up to the first that decides. -/
theorem faulty_allAgree (all : Bool) (ds : List Item) : (allAgree all ds).Faulty := by
  induction ds with
  | nil => exact .pure _
  | cons d rest ih =>
    refine d.value.faulty_truth.bind fun truth => ?_
    split
    · exact ih
    · exact .pure _

theorem faults_fold (all : Bool) : Handler.Faults (fold all) := by
  intro call
  unfold fold
  split
  · exact .pure _
  · exact (Value.faulty_truth _).bind fun _ => .pure _
  · exact (faulty_allAgree all _).bind fun _ => .pure _

/-- A union takes any arguments, so it has nothing to report. -/
theorem faults_union : Handler.Faults unionHandler :=
  fun _ => .pure _

theorem faults_named : Handler.Faults namedHandler := by
  intro call
  unfold namedHandler
  split
  · split <;> exact .pure _
  · exact .pure _

theorem faults_anonymous : Handler.Faults anonymousHandler := by
  intro call
  unfold anonymousHandler
  dsimp only
  split <;> exact .pure _

end Expression

/-- **The standard handlers** report faults, except for the one that prints. -/
theorem faults_standard : ∀ entry ∈ Registry.standard,
    entry.1 = "print" ∧ entry.2 = Expression.printHandler ∨
      entry.1 ≠ "print" ∧ Handler.Faults entry.2 := by
  open Expression in
  intro entry hentry
  simp only [Registry.standard, List.mem_cons, List.not_mem_nil, or_false] at hentry
  rcases hentry with rfl | rfl | rfl | rfl | rfl | rfl | rfl | rfl
  · exact .inr ⟨by decide, faults_if⟩
  · exact .inr ⟨by decide, faults_not⟩
  · exact .inr ⟨by decide, faults_fold true⟩
  · exact .inr ⟨by decide, faults_fold false⟩
  · exact .inl ⟨rfl, rfl⟩
  · exact .inr ⟨by decide, faults_union⟩
  · exact .inr ⟨by decide, faults_named⟩
  · exact .inr ⟨by decide, faults_anonymous⟩

/-! ## Diagnostics -/

/-- What evaluating an expression reports. -/
def Form.reports (registry : Registry) (form : Form) : Diagnostics :=
  (Tree.evaluate registry (form.call registry)).diagnostics

/-- The error that an expression is unknown. -/
def Form.unknown (form : Form) : Diagnostic :=
  .error form.position ("unknown expression '$(" ++ form.name ++ ")'")

/-- The message that an expression prints: what its arguments come to, as one text. -/
def Form.printed (registry : Registry) (form : Form) : Diagnostic :=
  ⟨form.position, .info,
    String.join (form.entries.map fun e => (e.value.build registry).value.render)⟩

/-- The event that an expression has been evaluated. -/
def Form.evaluatedEvent (registry : Registry) (form : Form) : Event :=
  ⟨.debug, "evaluated expression", [("expression", form.name),
    ("kind", ((Tree.expression form).build registry).value.kind.name)]⟩

section Evaluation

variable {registry : Registry}

/-- An expression comes to what its handler makes of the values of its entries. -/
theorem Tree.value_expression (form : Form) :
    ((Tree.expression form).build registry).value =
      (Tree.evaluate registry (form.call registry)).value := by
  obtain ⟨name, entries, p⟩ := form
  rw [Tree.build, Noted.value_bind, Entries.value_arguments]
  rfl

/-- A name has no handler or one. -/
theorem Registry.contains_cases (registry : Registry) (name : String) :
    registry.contains name = false ∧ registry.get? name = none ∨
      registry.contains name = true ∧ ∃ handler, registry.get? name = some handler := by
  have hcontains : registry.contains name = (registry.get? name).isSome := rfl
  cases hget : registry.get? name with
  | none => exact .inl ⟨by rw [hcontains, hget]; rfl, rfl⟩
  | some handler => exact .inr ⟨by rw [hcontains, hget]; rfl, handler, rfl⟩

/-- Without a handler the error is all that is noted, and nothing is logged. -/
theorem Form.notes_evaluate_unknown {form : Form} (h : registry.get? form.name = none) :
    (Tree.evaluate registry (form.call registry)).notes = [.diagnostic form.unknown] := by
  have hget : registry.get? (form.call registry).name = none := h
  rw [Tree.evaluate, hget]
  rfl

/-- A handler is called once, what it reports is placed at the expression, and then the event is
logged. -/
theorem Form.notes_evaluate {form : Form} {handler : Handler}
    (h : registry.get? form.name = some handler) :
    (Tree.evaluate registry (form.call registry)).notes =
      (handler (form.call registry)).notes.map (fun r => .diagnostic (r.place form.position)) ++
        [.event (form.evaluatedEvent registry)] := by
  have hget : registry.get? (form.call registry).name = some handler := h
  rw [evaluatedEvent, Tree.value_expression, Tree.evaluate, hget]
  rfl

end Evaluation

/-- **What an expression reports**, with the standard handlers: that it is unknown, what it prints,
or faults. -/
theorem Form.reports_standard (form : Form) :
    (Registry.standard.contains form.name = false ∧ form.name ≠ "print" ∧
      form.reports .standard = [form.unknown]) ∨
    (Registry.standard.contains form.name = true ∧ form.name = "print" ∧
      form.reports .standard = [form.printed .standard]) ∨
    (Registry.standard.contains form.name = true ∧ form.name ≠ "print" ∧
      ∀ d ∈ form.reports .standard, d.level = .error ∧ d.isUnknown = false) := by
  rcases Registry.standard.contains_cases form.name with ⟨hunknown, hget⟩ | ⟨hknown, handler, hget⟩
  · refine .inl ⟨hunknown, ?_, ?_⟩
    · intro hprint
      rw [hprint] at hunknown
      exact absurd hunknown (by decide)
    · rw [reports, Built.diagnostics, notes_evaluate_unknown hget]
      rfl
  · right
    have hreports : form.reports .standard =
        (handler (form.call .standard)).notes.map fun r => r.place form.position := by
      rw [reports, Built.diagnostics, notes_evaluate hget, List.filterMap_append,
        List.filterMap_map]
      exact (List.append_nil _).trans (congrFun List.filterMap_eq_map _)
    rcases faults_standard (form.name, handler) (OrderedMap.mem_of_get? hget) with
      ⟨hname, hhandler⟩ | ⟨hname, hfaults⟩
    · refine .inl ⟨hknown, hname, ?_⟩
      have hargs : (form.call .standard).args.map (fun d => d.value.render) =
          form.entries.map fun e => (e.value.build .standard).value.render := List.map_map
      rw [hreports, show handler = Expression.printHandler from hhandler, printed, ← hargs]
      rfl
    · refine .inr ⟨hknown, hname, ?_⟩
      rw [hreports, List.forall_mem_map]
      intro r hr
      obtain ⟨hlevel, hmessage⟩ := hfaults (form.call .standard) r hr
      exact ⟨hlevel, (congrArg _ hmessage).trans (Bool.and_false _)⟩

/-- The error of an unknown expression is told by how its message begins. -/
theorem Form.isUnknown_unknown (form : Form) : form.unknown.isUnknown = true := by
  have hmessage : form.unknown.message =
      "unknown expression" ++ (" '$(" ++ form.name ++ ")'") := by
    rw [← String.append_assoc, ← String.append_assoc]
    rfl
  rw [Diagnostic.isUnknown, hmessage, String.toList_append, Bool.and_eq_true,
    List.isPrefixOf_iff_prefix]
  exact ⟨rfl, List.prefix_append _ _⟩

/-- Messages for the reader come from expressions that print, one from each. -/
theorem Form.infos_reports (form : Form) :
    (form.reports .standard).filter (·.level = .info) =
      if form.name = "print" then [form.printed .standard] else [] := by
  rcases form.reports_standard with ⟨-, hname, h⟩ | ⟨-, hname, h⟩ | ⟨-, hname, h⟩
  · rw [h, if_neg hname]
    rfl
  · rw [h, if_pos hname]
    rfl
  · rw [if_neg hname, List.filter_eq_nil_iff]
    intro d hd
    simp [(h d hd).1]

/-- The error that it is unknown comes from an expression without a handler, and from no other. -/
theorem Form.unknowns_reports (form : Form) :
    (form.reports .standard).filter Diagnostic.isUnknown =
      if Registry.standard.contains form.name = false then [form.unknown] else [] := by
  rcases form.reports_standard with ⟨hname, -, h⟩ | ⟨hname, -, h⟩ | ⟨hname, -, h⟩
  · rw [h, if_pos hname, List.filter_cons_of_pos form.isUnknown_unknown]
    rfl
  · rw [h, if_neg (by simp [hname])]
    rfl
  · rw [if_neg (by simp [hname]), List.filter_eq_nil_iff]
    intro d hd
    simp [(h d hd).2]

/-- No expression warns. -/
theorem Form.warnings_reports (form : Form) :
    (form.reports .standard).filter (·.level = .warning) = [] := by
  rw [List.filter_eq_nil_iff]
  rcases form.reports_standard with ⟨-, -, h⟩ | ⟨-, -, h⟩ | ⟨-, -, h⟩
  · simp [h, Form.unknown, Diagnostic.error]
  · simp [h, Form.printed]
  · intro d hd
    simp [(h d hd).1]

/-- A list made of one element for some of another, and of none for the others. -/
theorem flatMap_ite {α β : Type} (p : α → Prop) [DecidablePred p] (g : α → β) (as : List α) :
    (as.flatMap fun a => if p a then [g a] else []) = (as.filter p).map g := by
  induction as with
  | nil => rfl
  | cons a rest ih =>
    rw [List.flatMap_cons, ih]
    by_cases ha : p a
    · rw [if_pos ha, List.filter_cons_of_pos (by simpa using ha)]
      rfl
    · rw [if_neg ha, List.filter_cons_of_neg (by simpa using ha)]
      rfl

/-- The diagnostics among what is noted on an occasion. -/
def Occasion.diagnostics (registry : Registry) (o : Occasion) : Diagnostics :=
  (o.notes registry).filterMap BuildNote.diagnostic?

section Documents

variable {registry : Registry} (forms : List Form)

/-- The event that a form has been built is no diagnostic. -/
theorem Document.diagnostics_ofForms : (ofForms registry forms).diagnostics =
    (forms.flatMap Form.occasions).flatMap (Occasion.diagnostics registry) := by
  rw [Built.diagnostics, notes_ofForms, List.filterMap_flatMap, List.flatMap_assoc]
  refine List.flatMap_congr ?_
  intro form _
  rw [List.filterMap_append, List.filterMap_flatMap]
  exact List.append_nil _

/-- **Diagnostics that are no warnings** of a key that comes again are those of the expressions,
in post-order. -/
theorem Document.filter_diagnostics_ofForms {p : Diagnostic → Bool}
    (hp : ∀ form e, p (Form.duplicate form e) = false) :
    (ofForms registry forms).diagnostics.filter p =
      (forms.flatMap Form.expressions).flatMap fun form => (form.reports registry).filter p := by
  have hexpressions : (forms.flatMap Form.occasions).filterMap Occasion.evaluated? =
      forms.flatMap Form.expressions := by
    rw [List.filterMap_flatMap]
    exact List.flatMap_congr fun form _ => form.evaluated_occasions
  rw [diagnostics_ofForms, List.filter_flatMap, ← hexpressions]
  refine Occasion.flatMap_of_evaluated ?_ _
  intro form e
  exact List.filter_cons_of_neg (by simp [hp])

/-- **The warnings** are one for each key that comes again in a group, with handlers that report
none. -/
theorem Document.warnings_ofForms
    (hquiet : ∀ form : Form, (form.reports registry).filter (·.level = .warning) = []) :
    ((ofForms registry forms).diagnostics.filter (·.level = .warning)).Perm
      (((forms.flatMap Form.statements).flatMap Form.repetitions).map fun again =>
        again.1.duplicate again.2) := by
  have hrepetitions : ((forms.flatMap Form.occasions).filterMap Occasion.repeated?).Perm
      ((forms.flatMap Form.statements).flatMap Form.repetitions) := by
    rw [List.filterMap_flatMap, List.flatMap_assoc]
    exact List.Perm.flatMap_left forms fun form _ => form.repeated_occasions
  rw [diagnostics_ofForms, List.filter_flatMap, Occasion.flatMap_of_repeated hquiet]
  refine (List.Perm.of_eq ?_).trans (hrepetitions.map _)
  rw [List.map_eq_flatMap]
  rfl

/-- An evaluation is logged once, if the expression is known. -/
theorem Form.events_evaluate (form : Form) :
    (Tree.evaluate registry (form.call registry)).events =
      if registry.contains form.name = true then [form.evaluatedEvent registry] else [] := by
  rw [Built.events]
  rcases registry.contains_cases form.name with ⟨hunknown, hget⟩ | ⟨hknown, handler, hget⟩
  · rw [notes_evaluate_unknown hget, hunknown]
    rfl
  · have hreports : ((handler (form.call registry)).notes.map fun r =>
        BuildNote.diagnostic (r.place form.position)).filterMap BuildNote.event? = [] := by
      rw [List.filterMap_map]
      exact List.filterMap_eq_nil_iff.mpr fun _ _ => rfl
    rw [notes_evaluate hget, hknown, List.filterMap_append, hreports]
    rfl

/-- **The log** has an event for each expression that is known, in post-order, and after those of
a top-level group one for the group. -/
theorem Document.events_ofForms : (ofForms registry forms).events = forms.flatMap fun form =>
    (form.expressions.filter fun e => registry.contains e.name = true).map
      (Form.evaluatedEvent registry) ++ [form.topEvent registry] := by
  rw [Built.events, notes_ofForms, List.filterMap_flatMap]
  refine List.flatMap_congr ?_
  intro form _
  rw [List.filterMap_append, List.filterMap_flatMap,
    Occasion.flatMap_of_evaluated (fun _ _ => rfl), form.evaluated_occasions, ← flatMap_ite]
  exact congrArg (· ++ [_]) (List.flatMap_congr fun e _ => e.events_evaluate)

end Documents

/-! ## Building with the standard handlers -/

namespace Document

/-- **A key that comes again** is warned of once, at the entry that brings it again, wherever the
group stands: on top, inside an entry or an array, or among the arguments of an expression. In the
group that is built from a form the first entry with a key gives the place and the last one the
value. The values of the entries without a key follow in order; an expression that came to null
leaves none. -/
theorem duplicates_warned (forms : List Form) :
    ((ofForms .standard forms).diagnostics.filter (·.level = .warning)).Perm
      (((forms.flatMap Form.statements).flatMap Form.repetitions).map fun again =>
        again.1.duplicate again.2) ∧
    (ofForms .standard forms).value = forms.map (fun form => (form.build .standard).value) ∧
    ∀ form : Form, ((Tree.group form).build .standard).value =
        .group (form.build .standard).value ∧
      form.Builds .standard (form.build .standard).value :=
  ⟨warnings_ofForms forms Form.warnings_reports, value_ofForms forms,
    fun form => ⟨rfl, form.builds⟩⟩

/-- **Every expression is evaluated once**, the innermost first. In the order of the expressions,
where those among the arguments of an expression come before it, there is one message for each that
prints, one error for each that is unknown, and one event for each other. Besides warnings of keys,
each expression reports what its handler reports and nothing else is reported. What becomes of a
value, and whether the expression around it makes use of it, plays no part. -/
theorem evaluates_once (forms : List Form) :
    let built := ofForms .standard forms
    let expressions := forms.flatMap Form.expressions
    built.diagnostics.filter (·.level = .info) =
      (expressions.filter fun form => form.name = "print").map (Form.printed .standard) ∧
    built.diagnostics.filter Diagnostic.isUnknown =
      (expressions.filter fun form => Registry.standard.contains form.name = false).map
        Form.unknown ∧
    built.diagnostics.filter (·.level ≠ .warning) = expressions.flatMap (Form.reports .standard) ∧
    built.events.filter (·.message = "evaluated expression") =
      (expressions.filter fun form => Registry.standard.contains form.name = true).map
        (Form.evaluatedEvent .standard) := by
  intro built expressions
  refine ⟨?_, ?_, ?_, ?_⟩
  · rw [filter_diagnostics_ofForms forms fun _ _ => rfl, ← flatMap_ite]
    exact List.flatMap_congr fun form _ => form.infos_reports
  · rw [filter_diagnostics_ofForms forms fun _ _ => rfl, ← flatMap_ite]
    exact List.flatMap_congr fun form _ => form.unknowns_reports
  · rw [filter_diagnostics_ofForms forms fun _ _ => rfl]
    refine List.flatMap_congr ?_
    intro form _
    have hquiet := List.filter_eq_nil_iff.mp form.warnings_reports
    exact List.filter_eq_self.mpr fun d hd => by simpa using hquiet d hd
  · have hform : ∀ form ∈ forms, (((form.expressions.filter fun e =>
        Registry.standard.contains e.name = true).map (Form.evaluatedEvent .standard)) ++
          [form.topEvent .standard]).filter (·.message = "evaluated expression") =
        (form.expressions.filter fun e => Registry.standard.contains e.name = true).map
          (Form.evaluatedEvent .standard) := by
      intro form _
      -- the event of the group itself has another message
      have htop : [form.topEvent .standard].filter (·.message = "evaluated expression") = [] := rfl
      rw [List.filter_append, htop, List.append_nil, List.filter_eq_self, List.forall_mem_map]
      exact fun e _ => rfl
    rw [events_ofForms, List.filter_flatMap, List.flatMap_congr hform, ← List.map_flatMap,
      ← List.filter_flatMap]

/-- The branch that is not chosen has printed all the same. -/
example : (ofForms .standard [⟨"a", [⟨none, .expression ⟨"if", [⟨none, .bool false, ⟨1, 9⟩⟩,
    ⟨none, .expression ⟨"print", [⟨none, .string "no", ⟨1, 23⟩⟩], ⟨1, 15⟩⟩, ⟨1, 15⟩⟩], ⟨1, 4⟩⟩,
    ⟨1, 4⟩⟩], ⟨1, 1⟩⟩]).diagnostics = [⟨⟨1, 15⟩, .info, "no"⟩] := by rfl

end Document

end DataLisp
