/-
Printed trees can be read back in one way.

A printed tree is a word, or a bracket with a head and one part or two (`Outline`).  Words stop at a
space or a bracket, and behind a part of a bracket one of the two always stands, so a text is split
into head and parts in one way only (`Outline.text_append_inj`).  What no bracket says is which rule
of the grammar a node is made by.  The head says that: a call, a minus and a group all have one
part, but no two of them have a head in common; an operator and a call of two arguments do not
either; and a minus with two parts subtracts.
-/
import Branchwise.Proofs.Token.Literal

namespace Branchwise

/-- A tree as far as it is printed. -/
inductive Outline
  | word (literal : String)
  | apply (head : String) (part : Outline)
  | apply2 (head : String) (first second : Outline)

namespace Outline

/-- The printed text, a space in front of each part. -/
def text : Outline → List Char
  | word literal => literal.toList
  | apply head part => '(' :: (head.toList ++ ' ' :: (part.text ++ [')']))
  | apply2 head first second =>
    '(' :: (head.toList ++ ' ' :: (first.text ++ ' ' :: (second.text ++ [')'])))

/-- All heads and leaves are words. -/
def IsWorded : Outline → Prop
  | word literal => IsWord literal.toList
  | apply head part => IsWord head.toList ∧ part.IsWorded
  | apply2 head first second => IsWord head.toList ∧ first.IsWorded ∧ second.IsWorded

end Outline

/-! ### One way to split a text -/

/-- No word goes on with this text. -/
def EndsWord (text : List Char) : Prop :=
  ∀ c ∈ text.head?, endsWord c

theorem endsWord_space (text : List Char) : EndsWord (' ' :: text) := by
  rintro c ⟨⟩
  decide

theorem endsWord_bracket (text : List Char) : EndsWord (')' :: text) := by
  rintro c ⟨⟩
  decide

variable {u v r s : List Char}

/-- A word is what stands before the first character that ends words. -/
theorem IsWord.takeWhile_append (hu : IsWord u) (hr : EndsWord r) :
    (u ++ r).takeWhile (!endsWord ·) = u := by
  rw [List.takeWhile_append_of_pos fun c hc => by simpa using hu.inside c hc]
  cases r with
  | nil => exact List.append_nil u
  | cons c rest =>
    have hc : endsWord c := hr c rfl
    rw [List.takeWhile_cons_of_neg (by simpa using hc), List.append_nil]

theorem IsWord.append_inj (hu : IsWord u) (hv : IsWord v) (hr : EndsWord r) (hs : EndsWord s)
    (h : u ++ r = v ++ s) : u = v ∧ r = s := by
  have hsame : u = v := by rw [← hu.takeWhile_append hr, h, hv.takeWhile_append hs]
  subst hsame
  exact ⟨rfl, List.append_cancel_left h⟩

/-- A word does not open a bracket. -/
theorem IsWord.append_ne (hu : IsWord u) (hr : EndsWord r) : u ++ r ≠ '(' :: s := by
  intro h
  have hnil : u = [] := by
    rw [← hu.takeWhile_append hr, h]
    rfl
  exact hu.ne_nil hnil

namespace Outline

theorem text_apply_append (head : String) (part : Outline) (r : List Char) :
    (apply head part).text ++ r = '(' :: (head.toList ++ ' ' :: (part.text ++ ')' :: r)) := by
  simp [text]

theorem text_apply2_append (head : String) (first second : Outline) (r : List Char) :
    (apply2 head first second).text ++ r =
      '(' :: (head.toList ++ ' ' :: (first.text ++ ' ' :: (second.text ++ ')' :: r))) := by
  simp [text]

/-- A bracket is split behind its head in one way. -/
theorem head_append_inj {head head' : String} (hhead : IsWord head.toList)
    (hhead' : IsWord head'.toList)
    (h : '(' :: (head.toList ++ ' ' :: r) = '(' :: (head'.toList ++ ' ' :: s)) :
    head = head' ∧ r = s := by
  obtain ⟨hheads, hrest⟩ :=
    hhead.append_inj hhead' (endsWord_space r) (endsWord_space s) (List.cons.inj h).2
  exact ⟨String.toList_inj.1 hheads, (List.cons.inj hrest).2⟩

/-- **If two texts start with outlines and no word goes on behind them, the outlines are the same
and so is what is left.** -/
theorem text_append_inj {o o' : Outline} (ho : o.IsWorded) (ho' : o'.IsWorded) (hr : EndsWord r)
    (hs : EndsWord s) (h : o.text ++ r = o'.text ++ s) : o = o' ∧ r = s := by
  induction o generalizing o' r s with
  | word literal =>
    cases o' with
    | word literal' =>
      obtain ⟨hliterals, hrest⟩ := ho.append_inj ho' hr hs h
      exact ⟨by rw [String.toList_inj.1 hliterals], hrest⟩
    | apply => exact absurd h (ho.append_ne hr)
    | apply2 => exact absurd h (ho.append_ne hr)
  | apply head part ih =>
    obtain ⟨hhead, hpart⟩ := ho
    rw [text_apply_append] at h
    cases o' with
    | word => exact absurd h.symm (ho'.append_ne hs)
    | apply head' part' =>
      obtain ⟨hhead', hpart'⟩ := ho'
      rw [text_apply_append] at h
      obtain ⟨hheads, hparts⟩ := head_append_inj hhead hhead' h
      obtain ⟨hsame, hrest⟩ := ih hpart hpart' (endsWord_bracket r) (endsWord_bracket s) hparts
      exact ⟨by rw [hheads, hsame], (List.cons.inj hrest).2⟩
    | apply2 head' first second =>
      -- behind the only part a bracket closes, behind the first of two it does not
      obtain ⟨hhead', hfirst, -⟩ := ho'
      rw [text_apply2_append] at h
      obtain ⟨-, hparts⟩ := head_append_inj hhead hhead' h
      obtain ⟨-, hrest⟩ := ih hpart hfirst (endsWord_bracket r) (endsWord_space _) hparts
      cases hrest
  | apply2 head first second ihFirst ihSecond =>
    obtain ⟨hhead, hfirst, hsecond⟩ := ho
    rw [text_apply2_append] at h
    cases o' with
    | word => exact absurd h.symm (ho'.append_ne hs)
    | apply head' part =>
      obtain ⟨hhead', hpart⟩ := ho'
      rw [text_apply_append] at h
      obtain ⟨-, hparts⟩ := head_append_inj hhead hhead' h
      obtain ⟨-, hrest⟩ := ihFirst hfirst hpart (endsWord_space _) (endsWord_bracket s) hparts
      cases hrest
    | apply2 head' first' second' =>
      obtain ⟨hhead', hfirst', hsecond'⟩ := ho'
      rw [text_apply2_append] at h
      obtain ⟨hheads, hparts⟩ := head_append_inj hhead hhead' h
      obtain ⟨hsame, hbehind⟩ :=
        ihFirst hfirst hfirst' (endsWord_space _) (endsWord_space _) hparts
      obtain ⟨hsame', hrest⟩ := ihSecond hsecond hsecond' (endsWord_bracket r)
        (endsWord_bracket s) (List.cons.inj hbehind).2
      exact ⟨by rw [hheads, hsame, hsame'], (List.cons.inj hrest).2⟩

/-- **The text of an outline says which outline it is.** -/
theorem text_injective {o o' : Outline} (ho : o.IsWorded) (ho' : o'.IsWorded)
    (h : o.text = o'.text) : o = o' := by
  have hnil : EndsWord [] := nofun
  exact (text_append_inj ho ho' hnil hnil (congrArg (· ++ []) h)).1

end Outline

namespace Expr

/-! ### The tokens of a node and of its parts -/

section Tokens

variable {P : Token → Prop} {f op opening separator closing : Token} {e e' : Expr}

theorem forall_tokens_call : (∀ t ∈ (call f opening e closing).tokens, P t) ↔
    P f ∧ P opening ∧ (∀ t ∈ e.tokens, P t) ∧ P closing := by
  rw [tokens, List.forall_mem_append, List.forall_mem_cons, List.forall_mem_cons,
    List.forall_mem_singleton, and_assoc, and_assoc]

theorem forall_tokens_call2 : (∀ t ∈ (call2 f opening e separator e' closing).tokens, P t) ↔
    P f ∧ P opening ∧ (∀ t ∈ e.tokens, P t) ∧ P separator ∧ (∀ t ∈ e'.tokens, P t) ∧
      P closing := by
  simp [tokens, or_imp, forall_and]

theorem forall_tokens_paren : (∀ t ∈ (paren opening e closing).tokens, P t) ↔
    P opening ∧ (∀ t ∈ e.tokens, P t) ∧ P closing := by
  rw [tokens, List.forall_mem_append, List.forall_mem_cons, List.forall_mem_singleton, and_assoc]

theorem forall_tokens_binary : (∀ t ∈ (binary e op e').tokens, P t) ↔
    (∀ t ∈ e.tokens, P t) ∧ P op ∧ ∀ t ∈ e'.tokens, P t := by
  rw [tokens, List.forall_mem_append, List.forall_mem_cons]

end Tokens

/-! ### Trees and their outlines -/

/-- What is printed of a tree. -/
def outline : Expr → Outline
  | value token => .word token.literal
  | call function _ argument _ => .apply function.literal argument.outline
  | call2 function _ first _ second _ => .apply2 function.literal first.outline second.outline
  | unary operator operand => .apply operator.literal operand.outline
  | paren _ inner _ => .apply "group" inner.outline
  | binary left operator right => .apply2 operator.literal left.outline right.outline

theorem toList_toText (e : Expr) : e.toText.toList = e.outline.text := by
  induction e <;> simp_all [toText, outline, Outline.text]

/-- No bracket and no blank is a head or a leaf. -/
theorem isWorded_outline {e : Expr} (he : e.Grammatical)
    (htokens : ∀ t ∈ e.tokens, t.IsWritten ∧ t.IsUnbroken) : e.outline.IsWorded := by
  induction e with
  | value t =>
    obtain ⟨ht, hunbroken⟩ := htokens t (List.mem_singleton_self t)
    have hvalue : t.kind.isValue := he
    refine ht.isWord ?_ ?_ hunbroken
    · intro hkind
      rw [hkind] at hvalue
      cases hvalue
    · intro hkind
      rw [hkind] at hvalue
      cases hvalue
  | call t opening argument closing ih =>
    obtain ⟨hkind, -, -, hargument⟩ := he
    obtain ⟨⟨ht, hunbroken⟩, -, hinner, -⟩ := forall_tokens_call.1 htokens
    exact ⟨ht.isWord (by simp [hkind]) (by simp [hkind]) hunbroken, ih hargument hinner⟩
  | call2 t opening first separator second closing ihFirst ihSecond =>
    obtain ⟨hkind, -, -, -, hfirst, hsecond⟩ := he
    obtain ⟨⟨ht, hunbroken⟩, -, hleft, -, hright, -⟩ := forall_tokens_call2.1 htokens
    exact ⟨ht.isWord (by simp [hkind]) (by simp [hkind]) hunbroken, ihFirst hfirst hleft,
      ihSecond hsecond hright⟩
  | unary op operand ih =>
    obtain ⟨hkind, hoperand⟩ := he
    obtain ⟨⟨ht, hunbroken⟩, hinner⟩ := List.forall_mem_cons.1 htokens
    exact ⟨ht.isWord (by simp [hkind]) (by simp [hkind]) hunbroken, ih hoperand hinner⟩
  | paren opening inner closing ih =>
    obtain ⟨-, -, hinner⟩ := he
    obtain ⟨-, hinside, -⟩ := forall_tokens_paren.1 htokens
    exact ⟨⟨by decide, by simp [endsWord]⟩, ih hinner hinside⟩
  | binary left op right ihLeft ihRight =>
    obtain ⟨⟨hkind, -⟩, hleft, hright⟩ := he
    obtain ⟨hbefore, ⟨ht, hunbroken⟩, hbehind⟩ := forall_tokens_binary.1 htokens
    exact ⟨ht.isWord (by simp [hkind]) (by simp [hkind]) hunbroken, ihLeft hleft hbefore,
      ihRight hright hbehind⟩

/-! ### From the outline back to the tree -/

/-- Values with one literal are the same value. -/
theorem unplaced_eq_of_isValue {t u : Token} (ht : t.IsWritten) (hu : u.IsWritten)
    (hvalue : t.isValue) (hvalue' : u.isValue) (h : t.literal = u.literal) :
    t.unplaced = u.unplaced := by
  have hminus {v : Token} (hv : v.isValue) : v.kind ≠ .unary := by
    intro hkind
    rw [Token.isValue, hkind] at hv
    cases hv
  exact Token.unplaced_congr (ht.kind_eq hu h (hminus hvalue) (hminus hvalue')) h

/-- **The head of a node and the number of its parts tell the rule that made the node.** -/
theorem rootName_eq_of_outline_eq {e e' : Expr} (he : e.Grammatical) (he' : e'.Grammatical)
    (htokens : ∀ t ∈ e.tokens, t.IsWritten) (htokens' : ∀ t ∈ e'.tokens, t.IsWritten)
    (h : e.outline = e'.outline) : e.rootName = e'.rootName := by
  cases e with
  | value =>
    cases e' with
    | value => rfl
    | _ => cases h
  | call t =>
    have ht := htokens t List.mem_cons_self
    cases e' with
    | call => rfl
    | unary op =>
      have hkinds := ht.kind_eq_or (htokens' op List.mem_cons_self) (Outline.apply.inj h).1
      simp [he.1, he'.1] at hkinds
    | paren => exact absurd (Outline.apply.inj h).1 ht.literal_ne_group
    | _ => cases h
  | call2 t =>
    have ht := htokens t List.mem_cons_self
    cases e' with
    | call2 => rfl
    | binary left op right =>
      obtain ⟨-, hop, -⟩ := forall_tokens_binary.1 htokens'
      have hkinds := ht.kind_eq_or hop (Outline.apply2.inj h).1
      simp [he.1, he'.1.1] at hkinds
    | _ => cases h
  | unary op =>
    have hop := htokens op List.mem_cons_self
    cases e' with
    | unary => rfl
    | call t =>
      have hkinds := hop.kind_eq_or (htokens' t List.mem_cons_self) (Outline.apply.inj h).1
      simp [he.1, he'.1] at hkinds
    | paren => exact absurd (Outline.apply.inj h).1 hop.literal_ne_group
    | _ => cases h
  | paren =>
    cases e' with
    | paren => rfl
    | call t =>
      exact absurd (Outline.apply.inj h).1.symm (htokens' t List.mem_cons_self).literal_ne_group
    | unary op =>
      exact absurd (Outline.apply.inj h).1.symm (htokens' op List.mem_cons_self).literal_ne_group
    | _ => cases h
  | binary left op right =>
    obtain ⟨-, hop, -⟩ := forall_tokens_binary.1 htokens
    cases e' with
    | binary => rfl
    | call2 t =>
      have hkinds := hop.kind_eq_or (htokens' t List.mem_cons_self) (Outline.apply2.inj h).1
      simp [he.1.1, he'.1] at hkinds
    | _ => cases h

/-- **An outline is the outline of one tree, places aside.** -/
theorem relabel_eq_of_outline_eq {e e' : Expr} (he : e.Grammatical) (he' : e'.Grammatical)
    (htokens : ∀ t ∈ e.tokens, t.IsWritten) (htokens' : ∀ t ∈ e'.tokens, t.IsWritten)
    (h : e.outline = e'.outline) : e.relabel Token.unplaced = e'.relabel Token.unplaced := by
  induction e generalizing e' with
  | value t =>
    have hroot := rootName_eq_of_outline_eq he he' htokens htokens' h
    cases e' with
    | value u =>
      have ht := htokens t (List.mem_singleton_self t)
      have hu := htokens' u (List.mem_singleton_self u)
      rw [relabel, relabel, unplaced_eq_of_isValue ht hu he he' (Outline.word.inj h)]
    | _ => simp [rootName] at hroot
  | call t opening argument closing ih =>
    have hroot := rootName_eq_of_outline_eq he he' htokens htokens' h
    obtain ⟨hkind, hopen, hclose, hargument⟩ := he
    obtain ⟨-, hopening, hinner, hclosing⟩ := forall_tokens_call.1 htokens
    cases e' with
    | call u opening' argument' closing' =>
      obtain ⟨hkind', hopen', hclose', hargument'⟩ := he'
      obtain ⟨-, hopening', hinner', hclosing'⟩ := forall_tokens_call.1 htokens'
      obtain ⟨hhead, hpart⟩ := Outline.apply.inj h
      rw [relabel, relabel, ih hargument hargument' hinner hinner' hpart,
        Token.unplaced_congr (hkind.trans hkind'.symm) hhead,
        hopening.unplaced_eq_of_mark hopening' hopen hopen' rfl,
        hclosing.unplaced_eq_of_mark hclosing' hclose hclose' rfl]
    | _ => simp [rootName] at hroot
  | call2 t opening first separator second closing ihFirst ihSecond =>
    have hroot := rootName_eq_of_outline_eq he he' htokens htokens' h
    obtain ⟨hkind, hopen, hsep, hclose, hfirst, hsecond⟩ := he
    obtain ⟨-, hopening, hleft, hseparator, hright, hclosing⟩ := forall_tokens_call2.1 htokens
    cases e' with
    | call2 u opening' first' separator' second' closing' =>
      obtain ⟨hkind', hopen', hsep', hclose', hfirst', hsecond'⟩ := he'
      obtain ⟨-, hopening', hleft', hseparator', hright', hclosing'⟩ :=
        forall_tokens_call2.1 htokens'
      obtain ⟨hhead, hpart, hpart'⟩ := Outline.apply2.inj h
      rw [relabel, relabel, ihFirst hfirst hfirst' hleft hleft' hpart,
        ihSecond hsecond hsecond' hright hright' hpart',
        Token.unplaced_congr (hkind.trans hkind'.symm) hhead,
        hopening.unplaced_eq_of_mark hopening' hopen hopen' rfl,
        hseparator.unplaced_eq_of_mark hseparator' hsep hsep' rfl,
        hclosing.unplaced_eq_of_mark hclosing' hclose hclose' rfl]
    | _ => simp [rootName] at hroot
  | unary op operand ih =>
    have hroot := rootName_eq_of_outline_eq he he' htokens htokens' h
    obtain ⟨hkind, hoperand⟩ := he
    obtain ⟨-, hinner⟩ := List.forall_mem_cons.1 htokens
    cases e' with
    | unary op' operand' =>
      obtain ⟨hkind', hoperand'⟩ := he'
      obtain ⟨-, hinner'⟩ := List.forall_mem_cons.1 htokens'
      obtain ⟨hhead, hpart⟩ := Outline.apply.inj h
      rw [relabel, relabel, ih hoperand hoperand' hinner hinner' hpart,
        Token.unplaced_congr (hkind.trans hkind'.symm) hhead]
    | _ => simp [rootName] at hroot
  | paren opening inner closing ih =>
    have hroot := rootName_eq_of_outline_eq he he' htokens htokens' h
    obtain ⟨hopen, hclose, hinner⟩ := he
    obtain ⟨hopening, hinside, hclosing⟩ := forall_tokens_paren.1 htokens
    cases e' with
    | paren opening' inner' closing' =>
      obtain ⟨hopen', hclose', hinner'⟩ := he'
      obtain ⟨hopening', hinside', hclosing'⟩ := forall_tokens_paren.1 htokens'
      obtain ⟨-, hpart⟩ := Outline.apply.inj h
      rw [relabel, relabel, ih hinner hinner' hinside hinside' hpart,
        hopening.unplaced_eq_of_mark hopening' hopen hopen' rfl,
        hclosing.unplaced_eq_of_mark hclosing' hclose hclose' rfl]
    | _ => simp [rootName] at hroot
  | binary left op right ihLeft ihRight =>
    have hroot := rootName_eq_of_outline_eq he he' htokens htokens' h
    obtain ⟨⟨hkind, -⟩, hleft, hright⟩ := he
    obtain ⟨hbefore, -, hbehind⟩ := forall_tokens_binary.1 htokens
    cases e' with
    | binary left' op' right' =>
      obtain ⟨⟨hkind', -⟩, hleft', hright'⟩ := he'
      obtain ⟨hbefore', -, hbehind'⟩ := forall_tokens_binary.1 htokens'
      obtain ⟨hhead, hpart, hpart'⟩ := Outline.apply2.inj h
      rw [relabel, relabel, ihLeft hleft hleft' hbefore hbefore' hpart,
        ihRight hright hright' hbehind hbehind' hpart',
        Token.unplaced_congr (hkind.trans hkind'.symm) hhead]
    | _ => simp [rootName] at hroot

end Expr

end Branchwise
