import LuaBundle.Text.Basic

/-! Where a unit of a source stands. Only a line feed ends a line; columns count code units. -/

namespace LuaBundle

structure Position where
  line : Nat
  column : Nat
  deriving DecidableEq, Repr

namespace Position

def start : Position := ⟨1, 1⟩

def step (p : Position) (u : UInt16) : Position :=
  if u = Text.lineFeed then ⟨p.line + 1, 1⟩ else ⟨p.line, p.column + 1⟩

def after (p : Position) (t : Text) : Position := t.foldl step p

@[simp] theorem after_nil (p : Position) : p.after [] = p := rfl

@[simp] theorem after_cons (p : Position) (u : UInt16) (t : Text) :
    p.after (u :: t) = (p.step u).after t := rfl

theorem after_append (p : Position) (s t : Text) : p.after (s ++ t) = (p.after s).after t :=
  List.foldl_append

end Position

end LuaBundle
