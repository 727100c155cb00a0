import DomQuery.Proofs.Selector.Grammar

/-!
# Brackets in selectors

An attribute selector and the argument of a functional pseudo-class stand in brackets of their own.
So a selector closes all brackets that it opens, and has no comma outside of them
(`Complex.isBalanced`): the commas outside brackets are the ones between the selectors of a list.
-/

namespace DomQuery

/-- The number of open brackets behind the token, or nothing for a comma outside brackets. -/
def Token.depthAfter (depth : Nat) : Token → Option Nat
  | .comma => if depth = 0 then none else some depth
  | .function _ | .leftBracket | .leftParen => some (depth + 1)
  | .rightBracket | .rightParen => some (depth - 1)
  | .ident _ | .hash _ _ | .string _ | .number _ | .dimension _ _ | .whitespace | .colon
  | .delim _ => some depth

theorem Token.depthAfter_eq_none {depth : Nat} {token : Token} :
    token.depthAfter depth = none ↔ token = .comma ∧ depth = 0 := by
  cases token <;> simp [depthAfter]

namespace Grammar

/-- The number of open brackets behind the tokens, or nothing where a comma among them stands
outside brackets. -/
def depthAfter (depth : Nat) (tokens : List Token) : Option Nat :=
  tokens.foldlM Token.depthAfter depth

@[simp]
theorem depthAfter_nil (depth : Nat) : depthAfter depth [] = some depth := rfl

@[simp]
theorem depthAfter_cons (depth : Nat) (token : Token) (tokens : List Token) :
    depthAfter depth (token :: tokens) =
      (token.depthAfter depth).bind fun inner => depthAfter inner tokens := rfl

@[simp]
theorem depthAfter_append (depth : Nat) (first second : List Token) :
    depthAfter depth (first ++ second) =
      (depthAfter depth first).bind fun inner => depthAfter inner second :=
  List.foldlM_append

/-- The tokens close what they open, and have no comma outside brackets. -/
def IsBalanced (tokens : List Token) : Prop :=
  ∀ depth, depthAfter depth tokens = some depth

/-- Inside brackets the tokens close what they open. -/
def IsBalancedInside (tokens : List Token) : Prop :=
  ∀ depth, depthAfter (depth + 1) tokens = some (depth + 1)

namespace IsBalanced

variable {first second tokens : List Token}

theorem nil : IsBalanced [] :=
  fun _ => rfl

theorem append (hfirst : IsBalanced first) (hsecond : IsBalanced second) :
    IsBalanced (first ++ second) := by
  intro depth
  rw [depthAfter_append, hfirst depth, Option.bind_some, hsecond depth]

theorem cons {token : Token} (htoken : ∀ depth, token.depthAfter depth = some depth)
    (h : IsBalanced tokens) : IsBalanced (token :: tokens) := by
  intro depth
  rw [depthAfter_cons, htoken depth, Option.bind_some, h depth]

/-- Tokens that are neither brackets nor commas. -/
theorem of_forall (h : ∀ token ∈ tokens, ∀ depth, token.depthAfter depth = some depth) :
    IsBalanced tokens := by
  induction tokens with
  | nil => exact nil
  | cons token tokens ih =>
      exact cons (h token (by simp)) (ih fun other hother => h other (by simp [hother]))

theorem space (h : Space tokens) : IsBalanced tokens := by
  refine of_forall fun token htoken depth => ?_
  rw [h token htoken]
  rfl

theorem inside (h : IsBalanced tokens) : IsBalancedInside tokens :=
  fun depth => h (depth + 1)

end IsBalanced

/-- A functional pseudo-class closes its parenthesis. -/
theorem IsBalancedInside.function {tokens : List Token} (h : IsBalancedInside tokens)
    (name : String) : IsBalanced (.colon :: .function name :: (tokens ++ [.rightParen])) := by
  intro depth
  simp [Token.depthAfter, h depth]

/-! ### Selectors -/

theorem Bracketed.depthAfter_eq {tokens : List Token} {simple : SimpleSelector}
    (h : Bracketed tokens simple) (depth : Nat) : depthAfter (depth + 1) tokens = some depth := by
  have hsign : ∀ op depth, depthAfter depth (comparison op) = some depth := by
    intro op depth
    cases op <;> rfl
  cases h with
  | bare hbefore hafter =>
      simp [Token.depthAfter, IsBalanced.space hbefore _, IsBalanced.space hafter _]
  | test hbefore hbetween hafter hlast hvalue =>
      cases hvalue <;>
        simp [Token.depthAfter, IsBalanced.space hbefore _, IsBalanced.space hbetween _,
          IsBalanced.space hafter _, IsBalanced.space hlast _, hsign]

theorem Plain.isBalanced {tokens : List Token} {simple : SimpleSelector}
    (h : Plain tokens simple) : IsBalanced tokens := by
  cases h <;> exact fun _ => rfl

theorem Joint.isBalanced {tokens : List Token} {combinator : Combinator}
    (h : Joint tokens combinator) : IsBalanced tokens := by
  cases h with
  | descendant hspace _ => exact IsBalanced.space hspace
  | sign hbefore hafter _ =>
      exact (IsBalanced.space hbefore).append (.cons (fun _ => rfl) (.space hafter))

theorem depthAfter_of_isNthPart {token : Token} (h : Parser.isNthPart token = true) (depth : Nat) :
    token.depthAfter depth = some depth := by
  cases token <;> first | rfl | exact absurd h Bool.false_ne_true

mutual

theorem Simple.isBalanced {tokens : List Token} {simple : SimpleSelector}
    (h : Simple tokens simple) : IsBalanced tokens :=
  match h with
  | .id _ => fun _ => rfl
  | .className _ => fun _ => rfl
  | .bracket hbracketed => fun depth => hbracketed.depthAfter_eq depth
  | .plain hplain => .cons (fun _ => rfl) hplain.isBalanced
  | .nth _ hparts _ _ => by
      have hinner := IsBalanced.of_forall fun token htoken =>
        depthAfter_of_isNthPart (hparts token htoken)
      exact hinner.inside.function _
  | .logical _ halternatives _ => halternatives.isBalancedInside.function _

theorem Simples.isBalanced {tokens : List Token} {simples : List SimpleSelector}
    (h : Simples tokens simples) : IsBalanced tokens :=
  match h with
  | .nil => .nil
  | .cons hsimple hrest => hsimple.isBalanced.append hrest.isBalanced

theorem Compound.isBalanced {tokens : List Token} {simples : List SimpleSelector}
    (h : Compound tokens simples) : IsBalanced tokens :=
  match h with
  | .tag hsimples => .cons (fun _ => rfl) hsimples.isBalanced
  | .universal hsimples => .cons (fun _ => rfl) hsimples.isBalanced
  | .simples hsimples _ => hsimples.isBalanced

/-- A selector closes what it opens, and has no comma outside brackets. -/
theorem Complex.isBalanced {tokens : List Token} {selector : ComplexSelector}
    (h : Complex tokens selector) : IsBalanced tokens :=
  match h with
  | .compound hcompound => hcompound.isBalanced
  | .combined hleft hjoint hcompound =>
      hleft.isBalanced.append (hjoint.isBalanced.append hcompound.isBalanced)

/-- Inside brackets the commas of a list do not matter. -/
theorem Alternatives.isBalancedInside {tokens : List Token} {selectors : SelectorList}
    (h : Alternatives tokens selectors) : IsBalancedInside tokens :=
  match h with
  | .single hbefore hcomplex hafter =>
      ((IsBalanced.space hbefore).append (hcomplex.isBalanced.append (.space hafter))).inside
  | .cons hbefore hcomplex hafter hrest => fun depth => by
      simp [Token.depthAfter, IsBalanced.space hbefore _, hcomplex.isBalanced _,
        IsBalanced.space hafter _, hrest.isBalancedInside depth]

end

theorem Alternatives.isBalanced_of_single {tokens : List Token} {selector : ComplexSelector}
    (h : Alternatives tokens [selector]) : IsBalanced tokens := by
  generalize hall : [selector] = selectors at h
  cases h with
  | single hbefore hcomplex hafter =>
      exact (IsBalanced.space hbefore).append (hcomplex.isBalanced.append (.space hafter))
  | cons _ _ _ hrest =>
      cases hall
      cases hrest

end Grammar

end DomQuery
