import DomQuery.Proofs.Selector.Rendering
import DomQuery.Proofs.Text.Case

/-!
# The shape of what is read

Whatever text without U+0000 is accepted, the selectors that are read are well shaped, so they
can be written and read again.

The names come from the tokens.  No name token is empty, since a name begins with a character or
an escape of its own, and none holds U+0000: the characters of the text do not, and an escape
never stands for it.  The rest is the grammar's: an induction over the derivation.
-/

namespace DomQuery

open Lexer Identifier

/-! ### Names of tokens -/

/-- Whether the names and values in the token can be written. -/
def Token.isWritable : Token → Bool
  | .ident name => Identifier.isWritable name
  | .hash value isId => !isId || Identifier.isWritable value
  | .string value => !value.toList.contains '\x00'
  | _ => true

namespace Lexer

theorem null_not_mem_of_suffix {text rest : List Char} (h : '\x00' ∉ text) (hrest : rest <:+ text) :
    '\x00' ∉ rest :=
  fun hmem => h (hrest.subset hmem)

theorem scalar_ne_null (code : Nat) : scalar code ≠ '\x00' := by
  unfold scalar
  split
  · next hcode =>
      obtain ⟨hvalid, hne⟩ := hcode
      have hcode' : (Char.ofNat code).toNat = code := by
        rw [Char.ofNat, dif_pos hvalid]
        rfl
      intro heq
      rw [heq] at hcode'
      exact hne hcode'.symm
  · decide

theorem escape_ne_null {text : List Char} (h : '\x00' ∉ text) : (escape text).1 ≠ '\x00' := by
  cases text with
  | nil => decide
  | cons c rest =>
      simp only [escape]
      split
      · exact scalar_ne_null _
      · rintro rfl
        exact h (by simp)

theorem null_not_mem_name {text : List Char} (h : '\x00' ∉ text) : '\x00' ∉ (name text).1 := by
  fun_induction name text with
  | case1 => simp
  | case2 c rest _ tail ih =>
      exact List.not_mem_cons_of_ne_of_not_mem (List.ne_of_not_mem_cons h)
        (ih (List.not_mem_of_not_mem_cons h))
  | case3 c rest _ _ tail ih =>
      have hrest := List.not_mem_of_not_mem_cons h
      exact List.not_mem_cons_of_ne_of_not_mem (escape_ne_null hrest).symm
        (ih (null_not_mem_of_suffix hrest (escape_suffix rest)))
  | case4 => simp

theorem null_not_mem_string {quote : Char} {text : List Char} (h : '\x00' ∉ text) :
    ∀ chars ∈ (string quote text).1, '\x00' ∉ chars := by
  fun_induction string quote text with
  | case1 => simp
  | case2 rest => simp
  | case3 rest => simp
  | case4 => simp
  | case5 _ _ rest ih =>
      exact ih (List.not_mem_of_not_mem_cons (List.not_mem_of_not_mem_cons h))
  | case6 d rest _ _ _ _ ih =>
      have hrest := List.not_mem_of_not_mem_cons h
      intro chars hchars
      obtain ⟨others, hothers, rfl⟩ := Option.map_eq_some_iff.mp hchars
      exact List.not_mem_cons_of_ne_of_not_mem (escape_ne_null hrest).symm
        (ih (null_not_mem_of_suffix hrest (escape_suffix _)) others hothers)
  | case7 c rest _ _ _ _ ih =>
      intro chars hchars
      obtain ⟨others, hothers, rfl⟩ := Option.map_eq_some_iff.mp hchars
      exact List.not_mem_cons_of_ne_of_not_mem (List.ne_of_not_mem_cons h)
        (ih (List.not_mem_of_not_mem_cons h) others hothers)

theorem name_ne_nil {text : List Char} (h : startsName text = true) : (name text).1 ≠ [] := by
  obtain ⟨c, rest, rfl, -⟩ := exists_head_of_startsName h
  rw [name]
  split
  · simp
  · next hchar =>
      have hescape := startsEscape_of_startsName h (by simpa using hchar)
      simp [hescape]

theorem isWritable_name {text : List Char} (h : '\x00' ∉ text) (hstarts : startsName text = true) :
    Identifier.isWritable (String.ofList (name text).1) = true := by
  simp [Identifier.isWritable, name_ne_nil hstarts, null_not_mem_name h]

theorem isWritable_of_token {c : Char} {rest left : List Char} {found : Token}
    (h : '\x00' ∉ c :: rest) (hfound : token c rest = (.ok (some found), left)) :
    found.isWritable = true := by
  have hrest := List.not_mem_of_not_mem_cons h
  cases takes_of_token hfound with
  | whitespace _ => rfl
  | string _ hclosed =>
      simpa [Token.isWritable] using null_not_mem_string hrest _ (by rw [hclosed]; rfl)
  | hash _ =>
      unfold hash
      split
      · cases hstarts : startsName rest with
        | false => simp [Token.isWritable]
        | true => simp [Token.isWritable, isWritable_name hrest hstarts]
      · rfl
  | numeric _ =>
      unfold numeric
      dsimp only
      split <;> rfl
  | named hstarts =>
      unfold named
      dsimp only
      split
      · rfl
      · exact isWritable_name h hstarts
  | punctuation _ _ _ _ =>
      unfold punctuation
      split <;> rfl

theorem isWritable_of_next {text rest : List Char} {found : Token} (h : '\x00' ∉ text)
    (hnext : next text = (.ok (some found), rest)) :
    found.isWritable = true ∧ '\x00' ∉ rest := by
  unfold next at hnext
  split at hnext
  · exact absurd hnext (by simp)
  · exact absurd hnext (by simp)
  · next c more hcomments =>
      have hmore := null_not_mem_of_suffix h (dropComments_suffix hcomments)
      have hfound : (token c more).1 = .ok (some found) := by rw [hnext]
      refine ⟨isWritable_of_token hmore hnext, ?_⟩
      have hsuffix := token_suffix hfound
      rw [hnext] at hsuffix
      exact null_not_mem_of_suffix (List.not_mem_of_not_mem_cons hmore) hsuffix

/-- The names of all tokens of a text can be written. -/
theorem isWritable_of_tokens {text : List Char} {found : List Token} (h : '\x00' ∉ text)
    (hfound : tokens text = .ok found) : ∀ token ∈ found, token.isWritable = true := by
  obtain ⟨rest, hreads, -⟩ := Reads.exists_of_tokens hfound
  clear hfound
  induction hreads with
  | done => simp
  | step hnext _ ih =>
      obtain ⟨hfirst, hmore⟩ := isWritable_of_next h hnext
      exact List.forall_mem_cons.mpr ⟨hfirst, ih hmore⟩

end Lexer

/-! ### Letter case -/

theorem Identifier.isWritable_lowercase {name : String} (h : Identifier.isWritable name = true) :
    Identifier.isWritable (Text.lowercase name) = true := by
  have hnull : '\x00' ∉ name.toList.map Char.toLower := by
    intro hmem
    obtain ⟨c, hc, heq⟩ := List.mem_map.mp hmem
    refine Text.toLower_ne_null ?_ heq
    rintro rfl
    exact null_not_mem h hc
  have hne : name.toList.map Char.toLower ≠ [] := by
    simpa using toList_ne_nil h
  simp only [Identifier.isWritable, Text.lowercase, Bool.and_eq_true, bne_iff_ne, ne_eq,
    String.toList_ofList, Bool.not_eq_true', List.contains_eq_mem, decide_eq_false_iff_not]
  refine ⟨fun hempty => hne ?_, hnull⟩
  rw [← String.toList_ofList (l := name.toList.map Char.toLower), hempty]
  rfl

/-! ### Derivations -/

namespace Grammar

/-- The names of all tokens can be written. -/
def Writable (tokens : List Token) : Prop :=
  ∀ token ∈ tokens, token.isWritable = true

theorem Writable.left {first second : List Token} (h : Writable (first ++ second)) :
    Writable first :=
  fun token hmem => h token (List.mem_append_left second hmem)

theorem Writable.right {first second : List Token} (h : Writable (first ++ second)) :
    Writable second :=
  fun token hmem => h token (List.mem_append_right first hmem)

theorem Writable.tail {token : Token} {tokens : List Token} (h : Writable (token :: tokens)) :
    Writable tokens :=
  fun other hmem => h other (List.mem_cons_of_mem token hmem)

theorem Value.null_not_mem {token : Token} {value : String} (h : Value token value)
    (hwritable : token.isWritable = true) : '\x00' ∉ value.toList := by
  cases h with
  | ident => exact Identifier.null_not_mem hwritable
  | string => simpa [Token.isWritable] using hwritable

theorem Bracketed.shape {tokens : List Token} {simple : SimpleSelector}
    (h : Bracketed tokens simple) (hwritable : Writable tokens) :
    simple.isLeading = false ∧ simple.isWellShaped = true := by
  cases h with
  | @bare before after name _ _ =>
      have hname : Identifier.isWritable name = true := hwritable (.ident name) (by simp)
      exact ⟨rfl, by rw [SimpleSelector.isWellShaped, hname]⟩
  | @test before between after last name value op token _ _ _ _ hvalue =>
      have hname : Identifier.isWritable name = true := hwritable (.ident name) (by simp)
      have hnull := hvalue.null_not_mem (hwritable token (by simp))
      exact ⟨rfl, by simp [SimpleSelector.isWellShaped, hname, hnull]⟩

theorem positional?_cases {name : String} {make : AnPlusB → SimpleSelector}
    (h : Parser.positional? name = some make) : make = .nthChild ∨ make = .nthLastChild := by
  unfold Parser.positional? at h
  split at h
  · exact Or.inl (Option.some.inj h).symm
  · split at h
    · exact Or.inr (Option.some.inj h).symm
    · exact absurd h (by simp)

theorem logical?_cases {name : String} {make : SelectorList → SimpleSelector}
    (h : Parser.logical? name = some make) :
    make = .notAny ∨ make = .isAny ∨ make = .whereAny := by
  unfold Parser.logical? at h
  split at h
  · exact Or.inl (Option.some.inj h).symm
  · split at h
    · exact Or.inr (Or.inl (Option.some.inj h).symm)
    · split at h
      · exact Or.inr (Or.inr (Option.some.inj h).symm)
      · exact absurd h (by simp)

mutual

theorem Simple.shape {tokens : List Token} {simple : SimpleSelector} (h : Simple tokens simple)
    (hwritable : Writable tokens) : simple.isLeading = false ∧ simple.isWellShaped = true :=
  match h with
  | .id value => by
      have hvalue : Identifier.isWritable value = true := hwritable (.hash value true) (by simp)
      exact ⟨rfl, by rw [SimpleSelector.isWellShaped, hvalue]⟩
  | .className name => by
      have hname : Identifier.isWritable name = true := hwritable (.ident name) (by simp)
      exact ⟨rfl, by rw [SimpleSelector.isWellShaped, hname]⟩
  | .bracket hattribute => hattribute.shape hwritable.tail
  | .plain hplain => by
      cases hplain <;> exact ⟨rfl, by rw [SimpleSelector.isWellShaped]⟩
  | .nth hmake _ _ hsimple => by
      subst hsimple
      rcases positional?_cases hmake with rfl | rfl <;>
        exact ⟨rfl, by rw [SimpleSelector.isWellShaped]⟩
  | .logical hmake hselectors hsimple => by
      obtain ⟨hne, hshape⟩ := hselectors.shape hwritable.tail.tail.left
      subst hsimple
      rcases logical?_cases hmake with rfl | rfl | rfl <;>
        exact ⟨rfl, by simp [SimpleSelector.isWellShaped, hne, hshape]⟩

theorem Simples.shape {tokens : List Token} {simples : List SimpleSelector}
    (h : Simples tokens simples) (hwritable : Writable tokens) : canFollow simples = true :=
  match h with
  | .nil => by rw [canFollow]
  | .cons hsimple hrest => by
      obtain ⟨hleading, hshape⟩ := hsimple.shape hwritable.left
      simp [canFollow, hleading, hshape, hrest.shape hwritable.right]

theorem Compound.shape {tokens : List Token} {simples : List SimpleSelector}
    (h : Compound tokens simples) (hwritable : Writable tokens) :
    isWellShapedCompound simples = true :=
  match h with
  | .tag hsimples => by
      have hname : Identifier.isWritable _ = true := hwritable _ List.mem_cons_self
      simp [isWellShapedCompound, SimpleSelector.isWellShaped, isWritable_lowercase hname,
        Text.lowercase_lowercase, hsimples.shape hwritable.tail]
  | .universal hsimples => by
      simp [isWellShapedCompound, SimpleSelector.isWellShaped, hsimples.shape hwritable.tail]
  | .simples hsimples hne => by
      have hfollow := hsimples.shape hwritable
      obtain ⟨simple, others, rfl⟩ := List.exists_cons_of_ne_nil hne
      simp only [canFollow, Bool.and_eq_true] at hfollow
      simp [isWellShapedCompound, hfollow]

theorem Complex.shape {tokens : List Token} {selector : ComplexSelector}
    (h : Complex tokens selector) (hwritable : Writable tokens) : selector.isWellShaped = true :=
  match h with
  | .compound hcompound => by
      rw [ComplexSelector.isWellShaped, hcompound.shape hwritable]
  | .combined hleft _ hcompound => by
      rw [ComplexSelector.isWellShaped, hleft.shape hwritable.left,
        hcompound.shape hwritable.right.right, Bool.and_self]

theorem Alternatives.shape {tokens : List Token} {selectors : SelectorList}
    (h : Alternatives tokens selectors) (hwritable : Writable tokens) :
    selectors ≠ [] ∧ areWellShaped selectors = true :=
  match h with
  | .single _ hcomplex _ => by
      have hshape := hcomplex.shape hwritable.right.left
      simp [areWellShaped, hshape]
  | .cons _ hcomplex _ hrest => by
      have hshape := hcomplex.shape hwritable.right.left
      have hothers := hrest.shape hwritable.right.right.right.tail
      simp [areWellShaped, hshape, hothers.2]

end

end Grammar

/-- The selectors that are read from a text without U+0000 are well shaped. -/
theorem SelectorList.isWellShaped_of_ofText {text : String} {selectors : SelectorList}
    (h : '\x00' ∉ text.toList) (hread : SelectorList.ofText text = .ok selectors) :
    selectors.isWellShaped = true := by
  simp only [SelectorList.ofText, Parser.bind_eq_ok] at hread
  obtain ⟨tokens, htokens, hread⟩ := hread
  obtain ⟨hne, hshape⟩ := (SelectorList.ofTokens_eq_ok_iff.mp hread).shape
    (Lexer.isWritable_of_tokens h htokens)
  simp [SelectorList.isWellShaped, hne, hshape]

/-- **Rendering and reading are inverse to each other.**  Every well-shaped list of selectors is
read back from its rendering.  Whatever text without U+0000 is read, the selectors are well shaped,
and rendering and reading them again gives the same selectors. -/
theorem SelectorList.render_roundtrip :
    (∀ selectors : SelectorList, selectors.isWellShaped = true →
      SelectorList.ofText selectors.render = .ok selectors) ∧
    (∀ (text : String) (selectors : SelectorList), '\x00' ∉ text.toList →
      SelectorList.ofText text = .ok selectors →
      selectors.isWellShaped = true ∧ SelectorList.ofText selectors.render = .ok selectors) := by
  refine ⟨fun selectors h => ofText_render h, fun text selectors hnull hread => ?_⟩
  have hshape := isWellShaped_of_ofText hnull hread
  exact ⟨hshape, ofText_render hshape⟩

/-- Selectors whose rendering is `ul#\31  > :nth-child(2n-1):not([a\.b=""])`. -/
def SelectorList.sample : SelectorList :=
  [.combined (.compound [.tag "ul", .id "1"]) .child
    [.nthChild ⟨2, -1⟩, .notAny [.compound [.hasAttribute "a.b" (some (.equals, ""))]]]]

theorem SelectorList.render_roundtrip_sample :
    SelectorList.ofText sample.render = .ok sample ∧ sample.isWellShaped = true :=
  have hread := render_roundtrip.1 sample (by decide)
  ⟨hread, (render_roundtrip.2 sample.render sample (by decide) hread).1⟩

end DomQuery
