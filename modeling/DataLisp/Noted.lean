/-
Results with notes.

A `Noted ν α` is a value of type `α` together with the notes of type `ν` that were
taken on the way to it, in order. Reading a document never stops at a problem: it goes
on and leaves a note, and this is the shape of everything that does so.
-/
set_option autoImplicit false

namespace DataLisp

/-- A value, and what was noted on the way to it. -/
structure Noted (ν α : Type) where
  value : α
  notes : List ν

namespace Noted

variable {ν μ α β : Type}

/-- Notes something. -/
def note (n : ν) : Noted ν Unit := ⟨(), [n]⟩

/-- Notes several things in order. -/
def noteAll (notes : List ν) : Noted ν Unit := ⟨(), notes⟩

instance : Monad (Noted ν) where
  pure a := ⟨a, []⟩
  bind x f := ⟨(f x.value).value, x.notes ++ (f x.value).notes⟩

/-- The same value with its notes turned into notes of another sort. -/
def mapNotes (f : ν → μ) (x : Noted ν α) : Noted μ α :=
  ⟨x.value, x.notes.map f⟩

/-! ## Notes add up -/

@[simp] theorem value_pure (a : α) : (pure a : Noted ν α).value = a := rfl

@[simp] theorem notes_pure (a : α) : (pure a : Noted ν α).notes = [] := rfl

@[simp] theorem value_bind (x : Noted ν α) (f : α → Noted ν β) :
    (x >>= f).value = (f x.value).value := rfl

@[simp] theorem notes_bind (x : Noted ν α) (f : α → Noted ν β) :
    (x >>= f).notes = x.notes ++ (f x.value).notes := rfl

theorem id_map' (x : Noted ν α) : id <$> x = x := by
  show (⟨x.value, x.notes ++ []⟩ : Noted ν α) = x
  simp

theorem pure_bind' (a : α) (f : α → Noted ν β) : (pure a >>= f) = f a := by
  show (⟨(f a).value, [] ++ (f a).notes⟩ : Noted ν β) = f a
  simp

theorem bind_assoc' {γ : Type} (x : Noted ν α) (f : α → Noted ν β) (g : β → Noted ν γ) :
    (x >>= f >>= g) = (x >>= fun a => f a >>= g) := by
  show (⟨(g (f x.value).value).value,
      (x.notes ++ (f x.value).notes) ++ (g (f x.value).value).notes⟩ : Noted ν γ)
    = ⟨(g (f x.value).value).value,
      x.notes ++ ((f x.value).notes ++ (g (f x.value).value).notes)⟩
  rw [List.append_assoc]

instance : LawfulMonad (Noted ν) :=
  LawfulMonad.mk' (Noted ν) id_map' pure_bind' bind_assoc'

end Noted

end DataLisp
