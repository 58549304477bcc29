/-
Which names a tree may use, and which one is to blame.

A tree is turned into a function whatever its shape: only names can fail.  `Expr.uses` lists the
tokens whose spelling counts, a node before its parts and the left part before the right, each with
what it stands for; brackets and separators are not among them.  What a token may stand for is said
by `Use.IsSupported` with the names written out.  The trees that have functions are those whose uses
are all supported, and in any other tree the first use that is not supported is the error.
-/
import Branchwise.Proofs.Multifunction.Compile
import Branchwise.Proofs.Refusal

namespace Branchwise

/-- A token of a tree and what it stands for there. -/
inductive Use
  | value (token : Token)
  | negation (token : Token)
  | operation (token : Token)
  | function (token : Token)
  | function2 (token : Token)

namespace Use

/-- The token that is used. -/
def token : Use → Token
  | value t | negation t | operation t | function t | function2 t => t

/-- There is something that the token can stand for.  Numbers and the variable go by their kind, all
else by its spelling. -/
def IsSupported : Use → Prop
  | value t =>
    match t.kind with
    | .letter | .number _ => True
    | .constant => t.literal ∈ ["i", "pi", "e"]
    | _ => False
  | negation t => t.literal = "-"
  | operation t => t.literal ∈ ["+", "-", "*", "/", "^"]
  | function t =>
    t.literal ∈ ["real", "im", "abs", "phi", "sin", "cos", "tg", "ctg", "sh", "ch", "th", "cth",
      "sch", "csch", "exp", "ln", "sqrt", "asin", "acos", "atg", "actg", "arsh", "arch", "arth",
      "arcth"]
  | function2 t => t.literal ∈ ["log", "root"]

/-- The error about a token. -/
def report (use : Use) : UnsupportedName :=
  ⟨use.token.literal⟩

theorem report_eq_iff {use : Use} {error : UnsupportedName} :
    use.report = error ↔ error.name = use.token.literal := by
  cases error
  simp [report, eq_comm]

end Use

/-- What the tokens of a tree stand for, from the top down and from left to right. -/
def Expr.uses : Expr → List Use
  | value t => [.value t]
  | call t _ argument _ => .function t :: argument.uses
  | call2 t _ first _ second _ => .function2 t :: (first.uses ++ second.uses)
  | unary t operand => .negation t :: operand.uses
  | paren _ inner _ => inner.uses
  | binary left t right => .operation t :: (left.uses ++ right.uses)

/-! ### One name -/

theorem Named.mem_names_iff {α : Type} [Named α] {s : String} :
    s ∈ names α ↔ ∃ a : α, name a = s := by
  simp [names, mem_all]

theorem lookUp_eq_error {α : Type} [Named α] {s : String} (h : s ∉ Named.names α) :
    lookUp α s = .error ⟨s⟩ := by
  unfold lookUp
  split
  · rename_i a ha
    exact absurd (Named.mem_names_iff.2 ⟨a, Named.ofName?_eq_some_iff.1 ha⟩) h
  · rfl

/-- Looking up is about a single use, where the names of the kind are the supported ones. -/
theorem lookUp_stopsAtFirst {α : Type} [Named α] (use : Use)
    (h : use.IsSupported ↔ use.token.literal ∈ Named.names α) :
    StopsAtFirst Use.IsSupported Use.report [use] (lookUp α use.token.literal) := by
  by_cases hname : use.token.literal ∈ Named.names α
  · obtain ⟨a, ha⟩ := Named.mem_names_iff.1 hname
    rw [lookUp_eq_ok_iff.2 ha]
    exact .ok (List.forall_mem_singleton.2 (h.2 hname))
  · rw [lookUp_eq_error hname]
    exact .error (.head (mt h.1 hname) [])

/-! ### All names of a tree -/

namespace Multifunction

theorem ofToken_stopsAtFirst (t : Token) :
    StopsAtFirst Use.IsSupported Use.report [.value t] (ofToken t) := by
  cases hkind : t.kind with
  | letter =>
    simp only [ofToken, hkind]
    exact .ok (by simp [Use.IsSupported, hkind])
  | number x =>
    simp only [ofToken, hkind]
    exact .ok (by simp [Use.IsSupported, hkind])
  | constant =>
    have hnames : (Use.value t).IsSupported ↔ t.literal ∈ Named.names Constant := by
      simp only [Use.IsSupported, hkind]
      rfl
    simp only [ofToken, hkind]
    exact (lookUp_stopsAtFirst (.value t) hnames).bind fun name => .pure _
  | _ =>
    have hrefused : ¬ (Use.value t).IsSupported := by
      simp [Use.IsSupported, hkind]
    simp only [ofToken, hkind]
    exact .error (.head hrefused [])

theorem ofExpr_stopsAtFirst (e : Expr) :
    StopsAtFirst Use.IsSupported Use.report e.uses (ofExpr e) := by
  induction e with
  | value t => exact ofToken_stopsAtFirst t
  | call t opening argument closing ih =>
    have hname : StopsAtFirst Use.IsSupported Use.report [.function t]
        (lookUp Function t.literal) := lookUp_stopsAtFirst (.function t) Iff.rfl
    rw [ofExpr, Expr.uses]
    simpa using hname.bind fun name => ih.bind fun g => .pure _
  | call2 t opening first separator second closing ihFirst ihSecond =>
    have hname : StopsAtFirst Use.IsSupported Use.report [.function2 t]
        (lookUp Function2 t.literal) := lookUp_stopsAtFirst (.function2 t) Iff.rfl
    rw [ofExpr, Expr.uses]
    simpa using hname.bind fun name => ihFirst.bind fun g => ihSecond.bind fun g' => .pure _
  | unary t operand ih =>
    rw [ofExpr, Expr.uses]
    by_cases hminus : t.literal = Named.name Operator.sub
    · have haccepted : ∀ use ∈ [Use.negation t], use.IsSupported :=
        List.forall_mem_singleton.2 hminus
      rw [if_pos hminus]
      simpa using (ih.bind fun g => .pure (negate g)).prepend haccepted
    · have hrefused : ¬ (Use.negation t).IsSupported := hminus
      rw [if_neg hminus]
      exact .error (.head hrefused operand.uses)
  | paren opening inner closing ih => exact ih
  | binary left t right ihLeft ihRight =>
    have hname : StopsAtFirst Use.IsSupported Use.report [.operation t]
        (lookUp Operator t.literal) := lookUp_stopsAtFirst (.operation t) Iff.rfl
    rw [ofExpr, Expr.uses]
    simpa using hname.bind fun name => ihLeft.bind fun l => ihRight.bind fun r => .pure _

/-- **A tree has a function exactly if all its names are supported, and otherwise the first one that
is not, a node before its parts and the left part before the right, is the error.** -/
theorem ofExpr_fails_at_first_name (e : Expr) :
    ((∃ f, ofExpr e = .ok f) ↔ ∀ use ∈ e.uses, use.IsSupported) ∧
      ∀ error, ofExpr e = .error error ↔
        ∃ use, FirstRefused Use.IsSupported e.uses use ∧ error.name = use.token.literal := by
  have hstops := ofExpr_stopsAtFirst e
  refine ⟨hstops.exists_ok_iff, fun error => ?_⟩
  simp only [hstops.eq_error_iff, Use.report_eq_iff]

-- in `tau % phi` nothing is supported, and the operation is blamed before its operands
example :
    ofExpr (.binary (.value ⟨.constant, "tau", 0⟩) ⟨.binary, "%", 3⟩
      (.value ⟨.constant, "phi", 4⟩)) = .error ⟨"%"⟩ := by
  rfl

end Multifunction

end Branchwise
