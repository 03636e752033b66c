import Letrec.Name.Basic

/-!
# Messages

Operations that report what they do return their result together with the events that happened on
the way, oldest first. An `Event` is a value of its own; its wording and its level are fixed here,
in `Event.message` and `Event.level`.
-/

universe u

namespace Letrec

/-- How much detail a message adds. -/
inductive Level where
  | trace
  | debug
  deriving DecidableEq, Repr

/-- Something worth reporting. -/
inductive Event where
  /-- A binding was read and its free references counted. -/
  | bindingRead (binding : Name) (references : Nat)
  /-- A binding group was split into components. -/
  | groupSplit (bindings components : Nat)
  /-- A recursive component is about to be tied. -/
  | groupTied (members : List Name)
  /-- A binding needs no tying. -/
  | notRecursive (binding : Name)
  /-- A data type is defined again. -/
  | typeReplaced (type : Name)
  /-- A constructor is taken over by another data type. -/
  | constructorMoved (constructor oldOwner newOwner : Name)
  /-- A program's bindings are about to be nested. -/
  | programAssembled (bindings dataTypes : Nat)
  deriving DecidableEq, Repr

namespace Event

/-- Single bindings are details; what concerns a whole group or the data types is not. -/
def level : Event → Level
  | bindingRead .. | notRecursive .. => .trace
  | groupSplit .. | groupTied .. | typeReplaced .. | constructorMoved .. | programAssembled .. =>
    .debug

def message : Event → String
  | bindingRead x n => "binding " ++ x.text ++ " references " ++ toString n ++ " names"
  | groupSplit n c =>
    "fix_recursion: " ++ toString n ++ " bindings in " ++ toString c ++ " components"
  | groupTied xs => "tying recursive group [" ++ ", ".intercalate (xs.map Name.text) ++ "]"
  | notRecursive x => x.text ++ " is not recursive"
  | typeReplaced t => "replacing data type " ++ t.text
  | constructorMoved c old new =>
    "constructor " ++ c.text ++ " moves from " ++ old.text ++ " to " ++ new.text
  | programAssembled n d =>
    "assembling program: " ++ toString n ++ " bindings, " ++ toString d ++ " data types"

end Event

/-- A result together with the events on the way to it, oldest first. -/
structure Logged (α : Type u) where
  value : α
  log : List Event := []
  deriving Repr

namespace Logged

variable {α β : Type u}

instance : Monad Logged where
  pure a := ⟨a, []⟩
  bind m f := ⟨(f m.value).value, m.log ++ (f m.value).log⟩

/-- Reports one event. -/
def tell (e : Event) : Logged PUnit := ⟨⟨⟩, [e]⟩

@[simp] theorem value_pure (a : α) : (pure a : Logged α).value = a := rfl

@[simp] theorem log_pure (a : α) : (pure a : Logged α).log = [] := rfl

@[simp] theorem value_bind (m : Logged α) (f : α → Logged β) :
    (m >>= f).value = (f m.value).value := rfl

@[simp] theorem value_map (f : α → β) (m : Logged α) : (f <$> m).value = f m.value := rfl

@[simp] theorem log_bind (m : Logged α) (f : α → Logged β) :
    (m >>= f).log = m.log ++ (f m.value).log := rfl

@[simp] theorem log_map (f : α → β) (m : Logged α) : (f <$> m).log = m.log :=
  List.append_nil m.log

@[simp] theorem log_tell (e : Event) : (tell.{u} e).log = [e] := rfl

instance : LawfulMonad Logged :=
  LawfulMonad.mk' Logged (fun x => congrArg (Logged.mk x.value) (List.append_nil x.log))
    (fun _ _ => rfl)
    (fun x _ _ => congrArg (Logged.mk _) (List.append_assoc x.log _ _))

@[simp] theorem value_mapM (f : α → Logged β) (l : List α) :
    (l.mapM f).value = l.map fun a => (f a).value := by
  induction l with
  | nil => simp
  | cons a l ih => simp [ih]

@[simp] theorem value_foldlM (f : β → α → Logged β) (b : β) (l : List α) :
    (l.foldlM f b).value = l.foldl (fun b a => (f b a).value) b := by
  induction l generalizing b with
  | nil => simp
  | cons a l ih => simp [ih]

end Logged

end Letrec
