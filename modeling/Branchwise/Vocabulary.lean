/-
The names a formula may use.

Each kind of name is a type of its own, listed in the order in which the program shows
it.  The reader of formulas takes its keywords from these lists and the compiler looks
its names up in the same lists, so a name the one accepts is a name the other knows.
-/

namespace Branchwise

/-! ### Things that have names

A look-up by name is the inverse of naming, because every value is listed and no two
share a name. -/

/-- A finite kind of thing whose values are told apart by their names. -/
class Named (α : Type) where
  all : List α
  name : α → String
  mem_all : ∀ a, a ∈ all
  name_injective : ∀ a ∈ all, ∀ b ∈ all, name a = name b → a = b

namespace Named

variable {α : Type} [Named α]

/-- The value that goes by this name. -/
def ofName? (s : String) : Option α :=
  (all : List α).find? fun a => name a == s

/-- The names in the order of the list. -/
def names (α : Type) [Named α] : List String :=
  (all : List α).map name

theorem ofName?_eq_some_iff {s : String} {a : α} : ofName? s = some a ↔ name a = s := by
  constructor
  · intro h
    simpa using List.find?_some h
  · rintro rfl
    cases h : (all : List α).find? fun b => name b == name a with
    | none => simpa using List.find?_eq_none.1 h a (mem_all a)
    | some b =>
      have hb : name b = name a := by simpa using List.find?_some h
      rw [ofName?, h, name_injective b (mem_all b) a (mem_all a) hb]

end Named

/-! ### The five kinds -/

/-- The numbers that have names. -/
inductive Constant
  | i | pi | e
deriving DecidableEq, Repr

/-- The functions of one argument. -/
inductive Function
  | real | im | abs | phi
  | sin | cos | tg | ctg
  | sh | ch | th | cth | sch | csch
  | exp | ln | sqrt
  | asin | acos | atg | actg
  | arsh | arch | arth | arcth
deriving DecidableEq, Repr

/-- The functions of two arguments: `log(x, base)` and `root(x, degree)`. -/
inductive Function2
  | log | root
deriving DecidableEq, Repr

/-- The operations that are written between two operands. -/
inductive Operator
  | add | sub | mul | div | pow
deriving DecidableEq, Repr

/-- Comparisons are words of the language that no rule of the grammar uses. -/
inductive Comparator
  | equal | less | greater | lessEqual | greaterEqual
deriving DecidableEq, Repr

/-- The names of the constants. -/
instance : Named Constant where
  all := [.i, .pi, .e]
  name
    | .i => "i" | .pi => "pi" | .e => "e"
  mem_all a := by cases a <;> decide
  name_injective := by decide

/-- The names of the functions of one argument. -/
instance : Named Function where
  all := [.real, .im, .abs, .phi, .sin, .cos, .tg, .ctg, .sh, .ch, .th, .cth, .sch, .csch,
    .exp, .ln, .sqrt, .asin, .acos, .atg, .actg, .arsh, .arch, .arth, .arcth]
  name
    | .real => "real" | .im => "im" | .abs => "abs" | .phi => "phi"
    | .sin => "sin" | .cos => "cos" | .tg => "tg" | .ctg => "ctg"
    | .sh => "sh" | .ch => "ch" | .th => "th" | .cth => "cth" | .sch => "sch" | .csch => "csch"
    | .exp => "exp" | .ln => "ln" | .sqrt => "sqrt"
    | .asin => "asin" | .acos => "acos" | .atg => "atg" | .actg => "actg"
    | .arsh => "arsh" | .arch => "arch" | .arth => "arth" | .arcth => "arcth"
  mem_all a := by cases a <;> decide
  name_injective := by decide

/-- The names of the functions of two arguments. -/
instance : Named Function2 where
  all := [.log, .root]
  name
    | .log => "log" | .root => "root"
  mem_all a := by cases a <;> decide
  name_injective := by decide

/-- The signs of the operations. -/
instance : Named Operator where
  all := [.add, .sub, .mul, .div, .pow]
  name
    | .add => "+" | .sub => "-" | .mul => "*" | .div => "/" | .pow => "^"
  mem_all a := by cases a <;> decide
  name_injective := by decide

/-- The signs of the comparisons. -/
instance : Named Comparator where
  all := [.equal, .less, .greater, .lessEqual, .greaterEqual]
  name
    | .equal => "=" | .less => "<" | .greater => ">" | .lessEqual => "<=" | .greaterEqual => ">="
  mem_all a := by cases a <;> decide
  name_injective := by decide

end Branchwise
