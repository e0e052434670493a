/-
Expression trees, and how they are written.

A tree is written with parentheses where the manual's precedence asks for them: around an operand
whose operator binds less tightly, or as tightly on the side to which the operator does not
associate.  An operand that begins with a unary operator needs none on the right, and a suffix is
put behind a prefix expression only.

* `BinaryOp`, `UnaryOp`, `ExprTree` — operators and trees;
* `BinaryOp.level`, `ExprTree.level` — the manual's precedence;
* `ExprTree.minimal`, `Proper` — parentheses where they are needed, and nowhere else;
* `Parenthesised` — a tree with parentheses added;
* `ExprTree.print`, `ExprTree.calls` — the tokens, and the calls of the tree builder;
* `minimal_proper`, `minimal_of_proper` — what `minimal` does;
* `minimal_length_le` — **no way of writing the tree takes fewer tokens**;
* `calls_injective` — **the tree that is built determines the expression**.
-/

import Tcvm.ParserState

namespace Tcvm.Parser

open SyntaxKind

/-! ### Operators -/

inductive UnaryOp
  | not | neg | len | bitNot
  deriving DecidableEq

inductive BinaryOp
  | or | and | lt | gt | le | ge | ne | eq | bitOr | bitXor | bitAnd | shl | shr | concat | add
  | sub | mul | div | intDiv | mod | pow
  deriving DecidableEq

/-- A token of the source text, by its kind and its text. -/
structure Lexeme where
  kind : SyntaxKind
  text : String
  deriving DecidableEq

def UnaryOp.lexeme : UnaryOp → Lexeme
  | not => { kind := notKw, text := "not" }
  | neg => { kind := minus, text := "-" }
  | len => { kind := SyntaxKind.hash, text := "#" }
  | bitNot => { kind := tilde, text := "~" }

def BinaryOp.lexeme : BinaryOp → Lexeme
  | or => { kind := orKw, text := "or" }
  | and => { kind := andKw, text := "and" }
  | lt => { kind := lAngle, text := "<" }
  | gt => { kind := rAngle, text := ">" }
  | le => { kind := lEq, text := "<=" }
  | ge => { kind := gEq, text := ">=" }
  | ne => { kind := notEq, text := "~=" }
  | eq => { kind := SyntaxKind.eq, text := "==" }
  | bitOr => { kind := pipe, text := "|" }
  | bitXor => { kind := tilde, text := "~" }
  | bitAnd => { kind := ampersand, text := "&" }
  | shl => { kind := dLAngle, text := "<<" }
  | shr => { kind := dRAngle, text := ">>" }
  | concat => { kind := dDot, text := ".." }
  | add => { kind := plus, text := "+" }
  | sub => { kind := minus, text := "-" }
  | mul => { kind := star, text := "*" }
  | div => { kind := slash, text := "/" }
  | intDiv => { kind := dSlash, text := "//" }
  | mod => { kind := percent, text := "%" }
  | pow => { kind := caret, text := "^" }

/-- The manual's precedence, from the lowest on. -/
def BinaryOp.level : BinaryOp → ℕ
  | or => 1
  | and => 2
  | lt | gt | le | ge | ne | eq => 3
  | bitOr => 4
  | bitXor => 5
  | bitAnd => 6
  | shl | shr => 7
  | concat => 8
  | add | sub => 9
  | mul | div | intDiv | mod => 10
  | pow => 12

/-- Concatenation and exponentiation are right associative, all others left associative. -/
def BinaryOp.rightAssoc : BinaryOp → Bool
  | concat | pow => true
  | _ => false

/-- Unary operators are between multiplication and exponentiation. -/
def UNARY_LEVEL : ℕ := 11

/-- Prefix expressions are above all operators. -/
def PREFIX_LEVEL : ℕ := 13

/-! ### Trees -/

/-- Expressions over the operators and the prefix expressions. -/
inductive ExprTree
  | name (text : String)
  | paren (e : ExprTree)
  | field (e : ExprTree) (text : String)
  | index (e i : ExprTree)
  | call (f : ExprTree) (args : List ExprTree)
  | method (e : ExprTree) (text : String) (args : List ExprTree)
  | unary (op : UnaryOp) (e : ExprTree)
  | binary (op : BinaryOp) (a b : ExprTree)

namespace ExprTree

def level : ExprTree → ℕ
  | unary _ _ => UNARY_LEVEL
  | binary op _ _ => op.level
  | _ => PREFIX_LEVEL

def isUnary : ExprTree → Bool
  | unary _ _ => true
  | _ => false

/-- A left operand in parentheses. -/
def needsLeft (op : BinaryOp) (a : ExprTree) : Bool :=
  if op.rightAssoc then decide (a.level ≤ op.level) else decide (a.level < op.level)

/-- A right operand in parentheses; one that begins with a unary operator cannot be mistaken. -/
def needsRight (op : BinaryOp) (b : ExprTree) : Bool :=
  !b.isUnary &&
    if op.rightAssoc then decide (b.level < op.level) else decide (b.level ≤ op.level)

/-- The operand of a unary operator in parentheses. -/
def needsUnary (e : ExprTree) : Bool := decide (e.level < UNARY_LEVEL)

/-- What a suffix is put behind in parentheses. -/
def needsPrefix (e : ExprTree) : Bool := decide (e.level < PREFIX_LEVEL)

def wrap (b : Bool) (e : ExprTree) : ExprTree := if b then paren e else e

mutual

/-- The tree with parentheses added where they are needed. -/
def minimal : ExprTree → ExprTree
  | name x => name x
  | paren e => paren (minimal e)
  | field e x => field (wrap e.needsPrefix (minimal e)) x
  | index e i => index (wrap e.needsPrefix (minimal e)) (minimal i)
  | call f args => call (wrap f.needsPrefix (minimal f)) (minimalArgs args)
  | method e x args => method (wrap e.needsPrefix (minimal e)) x (minimalArgs args)
  | unary op e => unary op (wrap e.needsUnary (minimal e))
  | binary op a b =>
      binary op (wrap (needsLeft op a) (minimal a)) (wrap (needsRight op b) (minimal b))

def minimalArgs : List ExprTree → List ExprTree
  | [] => []
  | a :: args => minimal a :: minimalArgs args

end

/-- Trees that have the parentheses they need. -/
inductive Proper : ExprTree → Prop
  | name (x : String) : Proper (name x)
  | paren {e : ExprTree} (h : Proper e) : Proper (paren e)
  | field {e : ExprTree} (x : String) (h : Proper e) (hhead : e.needsPrefix = false) :
      Proper (field e x)
  | index {e i : ExprTree} (h : Proper e) (hhead : e.needsPrefix = false) (hi : Proper i) :
      Proper (index e i)
  | call {f : ExprTree} {args : List ExprTree} (h : Proper f) (hhead : f.needsPrefix = false)
      (hargs : ∀ a ∈ args, Proper a) : Proper (call f args)
  | method {e : ExprTree} {args : List ExprTree} (x : String) (h : Proper e)
      (hhead : e.needsPrefix = false) (hargs : ∀ a ∈ args, Proper a) : Proper (method e x args)
  | unary {e : ExprTree} (op : UnaryOp) (h : Proper e) (hunary : e.needsUnary = false) :
      Proper (unary op e)
  | binary {a b : ExprTree} (op : BinaryOp) (ha : Proper a) (hleft : needsLeft op a = false)
      (hb : Proper b) (hright : needsRight op b = false) : Proper (binary op a b)

/-- Induction over a tree and its arguments. -/
theorem induct {P : ExprTree → Prop} (name : ∀ x, P (name x)) (paren : ∀ e, P e → P (paren e))
    (field : ∀ e x, P e → P (field e x)) (index : ∀ e i, P e → P i → P (index e i))
    (call : ∀ f args, P f → (∀ a ∈ args, P a) → P (call f args))
    (method : ∀ e x args, P e → (∀ a ∈ args, P a) → P (method e x args))
    (unary : ∀ op e, P e → P (unary op e))
    (binary : ∀ op a b, P a → P b → P (binary op a b)) : ∀ e, P e
  | .name x => name x
  | .paren e => paren e (induct name paren field index call method unary binary e)
  | .field e x => field e x (induct name paren field index call method unary binary e)
  | .index e i => index e i (induct name paren field index call method unary binary e)
      (induct name paren field index call method unary binary i)
  | .call f args => call f args (induct name paren field index call method unary binary f)
      fun a _ => induct name paren field index call method unary binary a
  | .method e x args => method e x args (induct name paren field index call method unary binary e)
      fun a _ => induct name paren field index call method unary binary a
  | .unary op e => unary op e (induct name paren field index call method unary binary e)
  | .binary op a b => binary op a b (induct name paren field index call method unary binary a)
      (induct name paren field index call method unary binary b)

/-! ### Parentheses -/

@[simp] theorem level_minimal (e : ExprTree) : e.minimal.level = e.level := by
  cases e <;> simp only [minimal, level]

@[simp] theorem isUnary_minimal (e : ExprTree) : e.minimal.isUnary = e.isUnary := by
  cases e <;> simp only [minimal, isUnary]

theorem Proper.wrap {e : ExprTree} (h : Proper e) (b : Bool) : Proper (wrap b e) := by
  cases b with
  | false => exact h
  | true => exact Proper.paren h

theorem level_paren (e : ExprTree) : (paren e).level = PREFIX_LEVEL := rfl

/-- An operand that is wrapped where it needs to be needs nothing more. -/
theorem needsPrefix_wrap (e : ExprTree) : needsPrefix (wrap e.needsPrefix e.minimal) = false := by
  cases h : e.needsPrefix with
  | true => rfl
  | false => rwa [wrap, if_neg Bool.false_ne_true, needsPrefix, level_minimal]

theorem needsUnary_wrap (e : ExprTree) : needsUnary (wrap e.needsUnary e.minimal) = false := by
  cases h : e.needsUnary with
  | true => rfl
  | false => rwa [wrap, if_neg Bool.false_ne_true, needsUnary, level_minimal]

theorem level_lt (op : BinaryOp) : op.level < PREFIX_LEVEL := by cases op <;> decide

theorem needsLeft_paren (op : BinaryOp) (e : ExprTree) : needsLeft op (paren e) = false := by
  have hlt := level_lt op
  rw [needsLeft, level_paren]
  split
  · exact decide_eq_false (Nat.not_le.mpr hlt)
  · exact decide_eq_false (Nat.not_lt.mpr (Nat.le_of_lt hlt))

theorem needsRight_paren (op : BinaryOp) (e : ExprTree) : needsRight op (paren e) = false := by
  have hlt := level_lt op
  rw [needsRight, level_paren]
  split
  · exact decide_eq_false (Nat.not_lt.mpr (Nat.le_of_lt hlt))
  · exact decide_eq_false (Nat.not_le.mpr hlt)

theorem needsLeft_wrap (op : BinaryOp) (e : ExprTree) :
    needsLeft op (wrap (needsLeft op e) e.minimal) = false := by
  cases h : needsLeft op e with
  | true => exact needsLeft_paren op _
  | false => rwa [wrap, if_neg Bool.false_ne_true, needsLeft, level_minimal]

theorem needsRight_wrap (op : BinaryOp) (e : ExprTree) :
    needsRight op (wrap (needsRight op e) e.minimal) = false := by
  cases h : needsRight op e with
  | true => exact needsRight_paren op _
  | false => rwa [wrap, if_neg Bool.false_ne_true, needsRight, level_minimal, isUnary_minimal]

theorem mem_minimalArgs {a : ExprTree} {args : List ExprTree} (h : a ∈ minimalArgs args) :
    ∃ a' ∈ args, a = a'.minimal := by
  induction args with
  | nil =>
      rw [minimalArgs] at h
      exact nomatch h
  | cons b args ih =>
      rw [minimalArgs] at h
      rcases List.mem_cons.mp h with rfl | h
      · exact ⟨b, List.mem_cons_self, rfl⟩
      · obtain ⟨a', hmem, heq⟩ := ih h
        exact ⟨a', List.mem_cons_of_mem _ hmem, heq⟩

/-- **All parentheses that are needed are there.** -/
theorem minimal_proper (e : ExprTree) : Proper e.minimal := by
  have hargs : ∀ args : List ExprTree, (∀ a ∈ args, Proper a.minimal) →
      ∀ a ∈ minimalArgs args, Proper a := by
    intro args h a ha
    obtain ⟨a', hmem, rfl⟩ := mem_minimalArgs ha
    exact h a' hmem
  induction e using induct with
  | name x =>
      rw [minimal]
      exact Proper.name x
  | paren e ih =>
      rw [minimal]
      exact Proper.paren ih
  | field e x ih =>
      rw [minimal]
      exact Proper.field x (ih.wrap _) (needsPrefix_wrap e)
  | index e i ih ihi =>
      rw [minimal]
      exact Proper.index (ih.wrap _) (needsPrefix_wrap e) ihi
  | call f args ih iha =>
      rw [minimal]
      exact Proper.call (ih.wrap _) (needsPrefix_wrap f) (hargs args iha)
  | method e x args ih iha =>
      rw [minimal]
      exact Proper.method x (ih.wrap _) (needsPrefix_wrap e) (hargs args iha)
  | unary op e ih =>
      rw [minimal]
      exact Proper.unary op (ih.wrap _) (needsUnary_wrap e)
  | binary op a b iha ihb =>
      rw [minimal]
      exact Proper.binary op (iha.wrap _) (needsLeft_wrap op a) (ihb.wrap _) (needsRight_wrap op b)

theorem minimalArgs_eq {args : List ExprTree} (h : ∀ a ∈ args, a.minimal = a) :
    minimalArgs args = args := by
  induction args with
  | nil => rw [minimalArgs]
  | cons a args ih =>
      rw [minimalArgs, h a List.mem_cons_self, ih fun b hb => h b (List.mem_cons_of_mem _ hb)]

/-- **No other parentheses are added.** -/
theorem minimal_of_proper {e : ExprTree} (h : Proper e) : e.minimal = e := by
  induction h with
  | name x => rw [minimal]
  | paren _ ih => rw [minimal, ih]
  | field x _ hhead ih => rw [minimal, ih, hhead, wrap, if_neg Bool.false_ne_true]
  | index _ hhead _ ih ihi => rw [minimal, ih, ihi, hhead, wrap, if_neg Bool.false_ne_true]
  | call _ hhead _ ih iha =>
      rw [minimal, ih, minimalArgs_eq iha, hhead, wrap, if_neg Bool.false_ne_true]
  | method x _ hhead _ ih iha =>
      rw [minimal, ih, minimalArgs_eq iha, hhead, wrap, if_neg Bool.false_ne_true]
  | unary op _ hunary ih => rw [minimal, ih, hunary, wrap, if_neg Bool.false_ne_true]
  | binary op _ hleft _ hright iha ihb =>
      rw [minimal, iha, ihb, hleft, hright, wrap, wrap, if_neg Bool.false_ne_true,
        if_neg Bool.false_ne_true]

/-! ### Tokens -/

/-- The token of a name. -/
def nameLexeme (text : String) : Lexeme := { kind := ident, text := text }

def lParenLexeme : Lexeme := { kind := lParen, text := "(" }

def rParenLexeme : Lexeme := { kind := SyntaxKind.rParen, text := ")" }

def lBracketLexeme : Lexeme := { kind := lBracket, text := "[" }

def rBracketLexeme : Lexeme := { kind := rBracket, text := "]" }

def dotLexeme : Lexeme := { kind := dot, text := "." }

def colonLexeme : Lexeme := { kind := colon, text := ":" }

def commaLexeme : Lexeme := { kind := comma, text := "," }

mutual

/-- The tokens of a tree. -/
def print : ExprTree → List Lexeme
  | name x => [nameLexeme x]
  | paren e => lParenLexeme :: (print e ++ [rParenLexeme])
  | field e x => print e ++ [dotLexeme, nameLexeme x]
  | index e i => print e ++ lBracketLexeme :: (print i ++ [rBracketLexeme])
  | call f args => print f ++ lParenLexeme :: printArgs args
  | method e x args => print e ++ colonLexeme :: nameLexeme x :: lParenLexeme :: printArgs args
  | unary op e => op.lexeme :: print e
  | binary op a b => print a ++ op.lexeme :: print b

/-- Arguments, and the parenthesis behind them. -/
def printArgs : List ExprTree → List Lexeme
  | [] => [rParenLexeme]
  | [a] => print a ++ [rParenLexeme]
  | a :: b :: args => print a ++ commaLexeme :: printArgs (b :: args)

end

/-! ### The fewest parentheses -/

/-- The second tree is the first with parentheses added. -/
inductive Parenthesised : ExprTree → ExprTree → Prop
  | name (x : String) : Parenthesised (name x) (name x)
  | paren {e e' : ExprTree} (h : Parenthesised e e') : Parenthesised (paren e) (paren e')
  | field {e e' : ExprTree} (x : String) (h : Parenthesised e e') :
      Parenthesised (field e x) (field e' x)
  | index {e e' i i' : ExprTree} (h : Parenthesised e e') (hi : Parenthesised i i') :
      Parenthesised (index e i) (index e' i')
  | call {f f' : ExprTree} {args args' : List ExprTree} (h : Parenthesised f f')
      (hlength : args.length = args'.length)
      (hargs : ∀ a ∈ args.zip args', Parenthesised a.1 a.2) :
      Parenthesised (call f args) (call f' args')
  | method {e e' : ExprTree} {args args' : List ExprTree} (x : String) (h : Parenthesised e e')
      (hlength : args.length = args'.length)
      (hargs : ∀ a ∈ args.zip args', Parenthesised a.1 a.2) :
      Parenthesised (method e x args) (method e' x args')
  | unary {e e' : ExprTree} (op : UnaryOp) (h : Parenthesised e e') :
      Parenthesised (unary op e) (unary op e')
  | binary {a a' b b' : ExprTree} (op : BinaryOp) (ha : Parenthesised a a')
      (hb : Parenthesised b b') : Parenthesised (binary op a b) (binary op a' b')
  | add {e e' : ExprTree} (h : Parenthesised e e') : Parenthesised e (paren e')

theorem Parenthesised.wrap {e e' : ExprTree} (h : Parenthesised e e') (b : Bool) :
    Parenthesised e (wrap b e') := by
  cases b with
  | false => exact h
  | true => exact Parenthesised.add h

theorem parenthesised_minimalArgs {args : List ExprTree}
    (h : ∀ a ∈ args, Parenthesised a a.minimal) :
    args.length = (minimalArgs args).length ∧
      ∀ a ∈ args.zip (minimalArgs args), Parenthesised a.1 a.2 := by
  induction args with
  | nil =>
      rw [minimalArgs]
      exact ⟨rfl, fun a ha => (nomatch ha)⟩
  | cons a args ih =>
      obtain ⟨hlength, hargs⟩ := ih fun b hb => h b (List.mem_cons_of_mem _ hb)
      rw [minimalArgs]
      refine ⟨congrArg Nat.succ hlength, fun c hc => ?_⟩
      rcases List.mem_cons.mp hc with rfl | hc
      · exact h a List.mem_cons_self
      · exact hargs c hc

/-- Nothing but parentheses is added. -/
theorem parenthesised_minimal (e : ExprTree) : Parenthesised e e.minimal := by
  induction e using induct with
  | name x =>
      rw [minimal]
      exact Parenthesised.name x
  | paren e ih =>
      rw [minimal]
      exact Parenthesised.paren ih
  | field e x ih =>
      rw [minimal]
      exact Parenthesised.field x (ih.wrap _)
  | index e i ih ihi =>
      rw [minimal]
      exact Parenthesised.index (ih.wrap _) ihi
  | call f args ih iha =>
      obtain ⟨hlength, hargs⟩ := parenthesised_minimalArgs iha
      rw [minimal]
      exact Parenthesised.call (ih.wrap _) hlength hargs
  | method e x args ih iha =>
      obtain ⟨hlength, hargs⟩ := parenthesised_minimalArgs iha
      rw [minimal]
      exact Parenthesised.method x (ih.wrap _) hlength hargs
  | unary op e ih =>
      rw [minimal]
      exact Parenthesised.unary op (ih.wrap _)
  | binary op a b iha ihb =>
      rw [minimal]
      exact Parenthesised.binary op (iha.wrap _) (ihb.wrap _)

section Sizes

-- every lemma here unfolds `print`: its equations are made once, ahead of them
attribute [local simp] print

/-- How many tokens a tree has. -/
def size (e : ExprTree) : ℕ := e.print.length

theorem size_paren (e : ExprTree) : (paren e).size = e.size + 2 := by
  rw [size, print, List.length_cons, List.length_append]
  rfl

theorem size_field (e : ExprTree) (x : String) : (field e x).size = e.size + 2 := by
  rw [size, print, List.length_append]
  rfl

theorem size_index (e i : ExprTree) : (index e i).size = e.size + (i.size + 2) := by
  rw [size, print, List.length_append, List.length_cons, List.length_append]
  rfl

theorem size_call (f : ExprTree) (args : List ExprTree) :
    (call f args).size = f.size + ((printArgs args).length + 1) := by
  rw [size, print, List.length_append, List.length_cons]
  rfl

theorem size_method (e : ExprTree) (x : String) (args : List ExprTree) :
    (method e x args).size = e.size + ((printArgs args).length + 3) := by
  rw [size, print, List.length_append, List.length_cons, List.length_cons, List.length_cons]
  rfl

theorem size_unary (op : UnaryOp) (e : ExprTree) : (unary op e).size = e.size + 1 := by
  rw [size, print, List.length_cons]
  rfl

theorem size_binary (op : BinaryOp) (a b : ExprTree) :
    (binary op a b).size = a.size + (b.size + 1) := by
  rw [size, print, List.length_append, List.length_cons]
  rfl

end Sizes

/-- What is known of a tree with parentheses added: it is no smaller than the minimal one, and where
nothing was added around the whole, it is of the same form. -/
structure NoSmaller (e e' : ExprTree) : Prop where
  le : e.minimal.size ≤ e'.size
  form : (e'.level = e.level ∧ e'.isUnary = e.isUnary) ∨
    (e'.level = PREFIX_LEVEL ∧ e.minimal.size + 2 ≤ e'.size)

/-- An operand that must not be of a low level was put in parentheses. -/
theorem NoSmaller.wrap {e e' : ExprTree} (h : NoSmaller e e') {b : Bool}
    (hneeds : e'.level = e.level → e'.isUnary = e.isUnary → b = false) :
    (wrap b e.minimal).size ≤ e'.size := by
  cases b with
  | false => exact h.le
  | true =>
      rcases h.form with ⟨hlevel, hunary⟩ | ⟨-, hle⟩
      · exact nomatch hneeds hlevel hunary
      · rw [ExprTree.wrap, if_pos rfl, size_paren]
        exact hle

theorem minimalArgs_length_le {args args' : List ExprTree} (hlength : args.length = args'.length)
    (h : ∀ a ∈ args.zip args', a.1.minimal.size ≤ a.2.size) :
    (printArgs (minimalArgs args)).length ≤ (printArgs args').length := by
  induction args generalizing args' with
  | nil =>
      obtain rfl := List.length_eq_zero_iff.mp hlength.symm
      exact Nat.le_refl _
  | cons a args ih =>
      cases args' with
      | nil => exact nomatch hlength
      | cons a' args' =>
          have hlength : args.length = args'.length := Nat.succ.inj hlength
          have ha : a.minimal.print.length ≤ a'.print.length := h (a, a') List.mem_cons_self
          have ih := ih hlength fun c hc => h c (List.mem_cons_of_mem _ hc)
          rw [minimalArgs]
          cases args with
          | nil =>
              obtain rfl := List.length_eq_zero_iff.mp hlength.symm
              rw [minimalArgs, printArgs, printArgs, List.length_append, List.length_append]
              exact Nat.add_le_add_right ha _
          | cons b args =>
              cases args' with
              | nil => exact nomatch hlength
              | cons b' args' =>
                  rw [minimalArgs] at ih ⊢
                  rw [printArgs, printArgs, List.length_append, List.length_append,
                    List.length_cons, List.length_cons]
                  exact Nat.add_le_add ha (Nat.succ_le_succ ih)

/-- The operand in front of a suffix. -/
theorem NoSmaller.head {e e' : ExprTree} (h : NoSmaller e e') (hhead : e'.needsPrefix = false) :
    (ExprTree.wrap e.needsPrefix e.minimal).size ≤ e'.size := by
  refine h.wrap fun hlevel _ => ?_
  rwa [needsPrefix, ← hlevel]

theorem noSmaller_of_parenthesised {e e' : ExprTree} (h : Parenthesised e e') :
    Proper e' → NoSmaller e e' := by
  induction h with
  | name x =>
      intro _
      refine ⟨?_, Or.inl ⟨rfl, rfl⟩⟩
      exact Nat.le_of_eq (by rw [minimal])
  | paren _ ih =>
      intro hproper
      cases hproper with
      | paren hproper =>
          refine ⟨?_, Or.inl ⟨rfl, rfl⟩⟩
          rw [minimal, size_paren, size_paren]
          exact Nat.add_le_add_right (ih hproper).le 2
  | field x _ ih =>
      intro hproper
      cases hproper with
      | field _ hproper hhead =>
          refine ⟨?_, Or.inl ⟨rfl, rfl⟩⟩
          rw [minimal, size_field, size_field]
          exact Nat.add_le_add_right ((ih hproper).head hhead) 2
  | index _ _ ih ihi =>
      intro hproper
      cases hproper with
      | index hproper hhead hi =>
          refine ⟨?_, Or.inl ⟨rfl, rfl⟩⟩
          rw [minimal, size_index, size_index]
          exact Nat.add_le_add ((ih hproper).head hhead) (Nat.add_le_add_right (ihi hi).le 2)
  | call _ hlength _ ih iha =>
      intro hproper
      cases hproper with
      | call hproper hhead hargs =>
          refine ⟨?_, Or.inl ⟨rfl, rfl⟩⟩
          rw [minimal, size_call, size_call]
          have hle := minimalArgs_length_le hlength fun a ha =>
            (iha a ha (hargs _ (List.of_mem_zip ha).2)).le
          exact Nat.add_le_add ((ih hproper).head hhead) (Nat.add_le_add_right hle 1)
  | method x _ hlength _ ih iha =>
      intro hproper
      cases hproper with
      | method _ hproper hhead hargs =>
          refine ⟨?_, Or.inl ⟨rfl, rfl⟩⟩
          rw [minimal, size_method, size_method]
          have hle := minimalArgs_length_le hlength fun a ha =>
            (iha a ha (hargs _ (List.of_mem_zip ha).2)).le
          exact Nat.add_le_add ((ih hproper).head hhead) (Nat.add_le_add_right hle 3)
  | unary op _ ih =>
      intro hproper
      cases hproper with
      | unary _ hproper hunary =>
          refine ⟨?_, Or.inl ⟨rfl, rfl⟩⟩
          rw [minimal, size_unary, size_unary]
          refine Nat.add_le_add_right ((ih hproper).wrap fun hlevel _ => ?_) 1
          rwa [needsUnary, ← hlevel]
  | binary op _ _ iha ihb =>
      intro hproper
      cases hproper with
      | binary _ ha hleft hb hright =>
          refine ⟨?_, Or.inl ⟨rfl, rfl⟩⟩
          rw [minimal, size_binary, size_binary]
          refine Nat.add_le_add ((iha ha).wrap fun hlevel _ => ?_)
            (Nat.add_le_add_right ((ihb hb).wrap fun hlevel hunary => ?_) 1)
          · rwa [needsLeft, ← hlevel]
          · rwa [needsRight, ← hlevel, ← hunary]
  | @add e e' _ ih =>
      intro hproper
      cases hproper with
      | paren hproper =>
          have hle : e.minimal.size + 2 ≤ (paren e').size := by
            rw [size_paren]
            exact Nat.add_le_add_right (ih hproper).le 2
          exact ⟨Nat.le_trans (Nat.le_add_right _ 2) hle, Or.inr ⟨rfl, hle⟩⟩

/-- **No way of writing the tree takes fewer tokens.** -/
theorem minimal_length_le {e e' : ExprTree} (h : Parenthesised e e') (hproper : Proper e') :
    e.minimal.print.length ≤ e'.print.length := (noSmaller_of_parenthesised h hproper).le

end ExprTree

/-! ### The tree that is built -/

/-- A call of the tree builder, which is given the text of a token. -/
inductive TextCall
  | startNode (kind : SyntaxKind)
  | token (lexeme : Lexeme)
  | finishNode
  deriving DecidableEq

/-- A node around what is inside it. -/
def TextCall.node (kind : SyntaxKind) (inner : List TextCall) : List TextCall :=
  startNode kind :: (inner ++ [finishNode])

namespace ExprTree

open TextCall

mutual

/-- The node of a tree. -/
def calls : ExprTree → List TextCall
  | name x => node ident [token (nameLexeme x)]
  | paren e => node expr (token lParenLexeme :: (calls e ++ [token rParenLexeme]))
  | field e x => node binOp (calls e ++ token dotLexeme :: node ident [token (nameLexeme x)])
  | index e i =>
      node SyntaxKind.index
        (calls e ++ token lBracketLexeme :: (calls i ++ [token rBracketLexeme]))
  | call f args => node funcCall (calls f ++ node funcArgs (token lParenLexeme :: callsArgs args))
  | method e x args =>
      node methodCall (calls e ++ token colonLexeme :: (node ident [token (nameLexeme x)] ++
        node funcArgs (token lParenLexeme :: callsArgs args)))
  | unary op e => node prefixOp (token op.lexeme :: calls e)
  | binary op a b => node binOp (calls a ++ token op.lexeme :: calls b)

def callsArgs : List ExprTree → List TextCall
  | [] => [token rParenLexeme]
  | [a] => calls a ++ [token rParenLexeme]
  | a :: b :: args => calls a ++ token commaLexeme :: callsArgs (b :: args)

end

theorem node_append (kind : SyntaxKind) (inner r : List TextCall) :
    node kind inner ++ r = startNode kind :: (inner ++ finishNode :: r) := by
  rw [node, List.cons_append, List.append_assoc]
  rfl

/-- A tree can be read off what begins with its calls. -/
def Read (e : ExprTree) : Prop :=
  ∀ {e' : ExprTree} {r r' : List TextCall}, calls e ++ r = calls e' ++ r' → e = e' ∧ r = r'

/-- Nodes of different kinds are different; only a field and a binary operator are of one kind. -/
def rootKind : ExprTree → SyntaxKind
  | name _ => ident
  | paren _ => expr
  | field _ _ => binOp
  | index _ _ => SyntaxKind.index
  | call _ _ => funcCall
  | method _ _ _ => methodCall
  | unary _ _ => prefixOp
  | binary _ _ _ => binOp

/-- What is inside the node of a tree. -/
def inside : ExprTree → List TextCall
  | name x => [token (nameLexeme x)]
  | paren e => token lParenLexeme :: (calls e ++ [token rParenLexeme])
  | field e x => calls e ++ token dotLexeme :: node ident [token (nameLexeme x)]
  | index e i => calls e ++ token lBracketLexeme :: (calls i ++ [token rBracketLexeme])
  | call f args => calls f ++ node funcArgs (token lParenLexeme :: callsArgs args)
  | method e x args =>
      calls e ++ token colonLexeme :: (node ident [token (nameLexeme x)] ++
        node funcArgs (token lParenLexeme :: callsArgs args))
  | unary op e => token op.lexeme :: calls e
  | binary op a b => calls a ++ token op.lexeme :: calls b

theorem calls_eq (e : ExprTree) : calls e = node e.rootKind e.inside := by
  cases e <;> rw [calls, rootKind, inside]

theorem unaryOp_inj {op op' : UnaryOp} (h : op.lexeme = op'.lexeme) : op = op' := by
  revert h
  cases op <;> cases op' <;> decide

theorem binaryOp_inj {op op' : BinaryOp} (h : op.lexeme = op'.lexeme) : op = op' := by
  have htext : (fun op : BinaryOp => op.lexeme.kind) op = op'.lexeme.kind := congrArg Lexeme.kind h
  revert htext
  cases op <;> cases op' <;> first | exact fun _ => rfl | exact fun h => nomatch h

theorem lexeme_ne_dot (op : BinaryOp) : op.lexeme ≠ dotLexeme := by cases op <;> decide

theorem callsArgs_inj {args : List ExprTree} (hread : ∀ a ∈ args, Read a) :
    ∀ {args' : List ExprTree} {r r' : List TextCall},
      callsArgs args ++ r = callsArgs args' ++ r' → args = args' ∧ r = r' := by
  have hstart : ∀ (a : ExprTree) (l r : List TextCall),
      ∃ k l', (calls a ++ l) ++ r = startNode k :: l' := by
    intro a l r
    rw [calls_eq, node_append]
    exact ⟨_, _, rfl⟩
  induction args with
  | nil =>
      intro args' r r' h
      rw [callsArgs] at h
      match args', h with
      | [], h =>
          rw [callsArgs] at h
          exact ⟨rfl, (List.cons.inj h).2⟩
      | [b], h =>
          obtain ⟨k, l, hl⟩ := hstart b [token rParenLexeme] r'
          rw [callsArgs, hl] at h
          exact nomatch (List.cons.inj h).1
      | b :: c :: args', h =>
          obtain ⟨k, l, hl⟩ := hstart b (token commaLexeme :: callsArgs (c :: args')) r'
          rw [callsArgs, hl] at h
          exact nomatch (List.cons.inj h).1
  | cons a args ih =>
      intro args' r r' h
      have ha : Read a := hread a List.mem_cons_self
      have ih := @ih fun b hb => hread b (List.mem_cons_of_mem _ hb)
      match args, args', h with
      | [], [], h =>
          obtain ⟨k, l, hl⟩ := hstart a [token rParenLexeme] r
          rw [callsArgs.eq_2, hl, callsArgs.eq_1] at h
          exact nomatch (List.cons.inj h).1
      | c :: args, [], h =>
          obtain ⟨k, l, hl⟩ := hstart a (token commaLexeme :: callsArgs (c :: args)) r
          rw [callsArgs.eq_3, hl, callsArgs.eq_1] at h
          exact nomatch (List.cons.inj h).1
      | [], [b], h =>
          rw [callsArgs, callsArgs, List.append_assoc, List.append_assoc] at h
          obtain ⟨rfl, hrest⟩ := ha h
          exact ⟨rfl, (List.cons.inj hrest).2⟩
      | [], b :: c :: args', h =>
          rw [callsArgs, callsArgs, List.append_assoc, List.append_assoc] at h
          obtain ⟨-, h⟩ := ha h
          exact nomatch (List.cons.inj h).1
      | c :: args, [b], h =>
          rw [callsArgs, callsArgs, List.append_assoc, List.append_assoc] at h
          obtain ⟨-, h⟩ := ha h
          exact nomatch (List.cons.inj h).1
      | c :: args, b :: d :: args', h =>
          rw [callsArgs, callsArgs, List.append_assoc, List.append_assoc] at h
          obtain ⟨rfl, hrest⟩ := ha h
          obtain ⟨heq, hr⟩ := ih (List.cons.inj hrest).2
          exact ⟨congrArg _ heq, hr⟩

theorem calls_open {e e' : ExprTree} {r r' : List TextCall} (h : calls e ++ r = calls e' ++ r') :
    e.rootKind = e'.rootKind ∧ e.inside ++ finishNode :: r = e'.inside ++ finishNode :: r' := by
  rw [calls_eq, calls_eq, node_append, node_append] at h
  obtain ⟨hkind, hrest⟩ := List.cons.inj h
  exact ⟨TextCall.startNode.inj hkind, hrest⟩

theorem read (e : ExprTree) : Read e := by
  induction e using induct with
  | name x =>
      intro e' r r' h
      obtain ⟨hkind, hin⟩ := calls_open h
      cases e' with
      | name x' =>
          obtain ⟨hx, hend⟩ := List.cons.inj hin
          cases hx
          exact ⟨rfl, List.tail_eq_of_cons_eq hend⟩
      | _ => exact nomatch hkind
  | paren e ih =>
      intro e' r r' h
      obtain ⟨hkind, hin⟩ := calls_open h
      cases e' with
      | paren e' =>
          simp only [inside, List.cons_append, List.append_assoc, List.nil_append] at hin
          obtain ⟨rfl, hend⟩ := ih (List.tail_eq_of_cons_eq hin)
          exact ⟨rfl, List.tail_eq_of_cons_eq (List.tail_eq_of_cons_eq hend)⟩
      | _ => exact nomatch hkind
  | field e x ih =>
      intro e' r r' h
      obtain ⟨hkind, hin⟩ := calls_open h
      cases e' with
      | field e' x' =>
          simp only [inside, List.cons_append, List.append_assoc, List.nil_append,
            node_append] at hin
          obtain ⟨rfl, hname⟩ := ih hin
          obtain ⟨hx, hend⟩ := List.cons.inj
            (List.tail_eq_of_cons_eq (List.tail_eq_of_cons_eq hname))
          cases hx
          exact ⟨rfl, List.tail_eq_of_cons_eq (List.tail_eq_of_cons_eq hend)⟩
      | binary op a b =>
          simp only [inside, List.cons_append, List.append_assoc] at hin
          obtain ⟨-, hop⟩ := ih hin
          exact absurd (TextCall.token.inj (List.cons.inj hop).1).symm (lexeme_ne_dot op)
      | _ => exact nomatch hkind
  | index e i ih ihi =>
      intro e' r r' h
      obtain ⟨hkind, hin⟩ := calls_open h
      cases e' with
      | index e' i' =>
          simp only [inside, List.cons_append, List.append_assoc, List.nil_append] at hin
          obtain ⟨rfl, hindex⟩ := ih hin
          obtain ⟨rfl, hend⟩ := ihi (List.tail_eq_of_cons_eq hindex)
          exact ⟨rfl, List.tail_eq_of_cons_eq (List.tail_eq_of_cons_eq hend)⟩
      | _ => exact nomatch hkind
  | call f args ih iha =>
      intro e' r r' h
      obtain ⟨hkind, hin⟩ := calls_open h
      cases e' with
      | call f' args' =>
          simp only [inside, List.cons_append, List.append_assoc, node_append] at hin
          obtain ⟨rfl, hargs⟩ := ih hin
          obtain ⟨rfl, hend⟩ := callsArgs_inj iha
            (List.tail_eq_of_cons_eq (List.tail_eq_of_cons_eq hargs))
          exact ⟨rfl, List.tail_eq_of_cons_eq (List.tail_eq_of_cons_eq hend)⟩
      | _ => exact nomatch hkind
  | method e x args ih iha =>
      intro e' r r' h
      obtain ⟨hkind, hin⟩ := calls_open h
      cases e' with
      | method e' x' args' =>
          simp only [inside, List.cons_append, List.append_assoc, List.nil_append,
            node_append] at hin
          obtain ⟨rfl, hname⟩ := ih hin
          obtain ⟨hx, hargs⟩ := List.cons.inj
            (List.tail_eq_of_cons_eq (List.tail_eq_of_cons_eq hname))
          cases hx
          obtain ⟨rfl, hend⟩ := callsArgs_inj iha (List.tail_eq_of_cons_eq
            (List.tail_eq_of_cons_eq (List.tail_eq_of_cons_eq hargs)))
          exact ⟨rfl, List.tail_eq_of_cons_eq (List.tail_eq_of_cons_eq hend)⟩
      | _ => exact nomatch hkind
  | unary op e ih =>
      intro e' r r' h
      obtain ⟨hkind, hin⟩ := calls_open h
      cases e' with
      | unary op' e' =>
          obtain ⟨hop, hrest⟩ := List.cons.inj hin
          obtain rfl := unaryOp_inj (TextCall.token.inj hop)
          obtain ⟨rfl, hend⟩ := ih hrest
          exact ⟨rfl, List.tail_eq_of_cons_eq hend⟩
      | _ => exact nomatch hkind
  | binary op a b iha ihb =>
      intro e' r r' h
      obtain ⟨hkind, hin⟩ := calls_open h
      cases e' with
      | field e' x' =>
          simp only [inside, List.cons_append, List.append_assoc] at hin
          obtain ⟨-, hop⟩ := iha hin
          exact absurd (TextCall.token.inj (List.cons.inj hop).1) (lexeme_ne_dot op)
      | binary op' a' b' =>
          simp only [inside, List.cons_append, List.append_assoc] at hin
          obtain ⟨rfl, hrest⟩ := iha hin
          obtain ⟨hop, hoperand⟩ := List.cons.inj hrest
          obtain rfl := binaryOp_inj (TextCall.token.inj hop)
          obtain ⟨rfl, hend⟩ := ihb hoperand
          exact ⟨rfl, List.tail_eq_of_cons_eq hend⟩
      | _ => exact nomatch hkind

/-- **The tree that is built determines the expression.** -/
theorem calls_injective {e e' : ExprTree} (h : calls e = calls e') : e = e' :=
  (read e (show calls e ++ [] = calls e' ++ [] by rw [h])).1

end ExprTree

end Tcvm.Parser
