import DomQuery.Proofs.Dom.Lookup
import DomQuery.Proofs.Dom.Trail

/-!
# The forest behind the links

The links of the nodes describe a forest: every node has a list of children, in which it is the
parent of each, and no node is below itself.  `Forest dom kids` says that the links of `dom`
describe the forest with the child lists `kids`; the five links of a node are then read off the
child lists.
-/

namespace DomQuery.Dom

/-- The node is below the other: one or more steps to the parent lead from it to the other. -/
def Below (dom : Dom) (node top : Handle) : Prop :=
  Relation.TransGen (Leads dom.parent?) node top

/-- The node is the other or below it. -/
def Within (dom : Dom) (node top : Handle) : Prop :=
  Relation.ReflTransGen (Leads dom.parent?) node top

/-- The links describe the forest with the given child lists. -/
structure Forest (dom : Dom) (kids : Handle → List Handle) : Prop where
  contains_of_mem : ∀ {parent child : Handle}, child ∈ kids parent →
    dom.contains child = true ∧ dom.contains parent = true
  parent_iff : ∀ child parent : Handle,
    (dom.links child).parent = some parent ↔ child ∈ kids parent
  nodup : ∀ parent : Handle, (kids parent).Nodup
  firstChild : ∀ parent : Handle, (dom.links parent).firstChild = (kids parent).head?
  lastChild : ∀ parent : Handle, (dom.links parent).lastChild = (kids parent).getLast?
  previousSibling : ∀ {parent child : Handle} {before after : List Handle},
    kids parent = before ++ child :: after →
      (dom.links child).previousSibling = before.getLast?
  nextSibling : ∀ {parent child : Handle} {before after : List Handle},
    kids parent = before ++ child :: after → (dom.links child).nextSibling = after.head?
  alone : ∀ child : Handle, (dom.links child).parent = none →
    (dom.links child).previousSibling = none ∧ (dom.links child).nextSibling = none
  /-- A parent is nearer to the top than its children. -/
  ranked : ∃ depth : Handle → Nat, ∀ {parent child : Handle}, child ∈ kids parent →
    depth parent < depth child

namespace Forest

variable {dom : Dom} {kids : Handle → List Handle}

theorem parent_unique (h : Forest dom kids) {first second child : Handle}
    (hfirst : child ∈ kids first) (hsecond : child ∈ kids second) : first = second := by
  rw [← h.parent_iff] at hfirst hsecond
  exact Option.some.inj (hfirst.symm.trans hsecond)

theorem parent_ne (h : Forest dom kids) {parent child : Handle} (hmem : child ∈ kids parent) :
    child ≠ parent := by
  obtain ⟨depth, hdepth⟩ := h.ranked
  rintro rfl
  exact Nat.lt_irrefl _ (hdepth hmem)

/-- No node is below itself. -/
theorem not_below_self (h : Forest dom kids) (node : Handle) : ¬ dom.Below node node := by
  obtain ⟨depth, hdepth⟩ := h.ranked
  have hdecrease : ∀ top, dom.Below node top → depth top < depth node := by
    intro top hbelow
    induction hbelow with
    | single hstep => exact hdepth ((h.parent_iff _ _).mp hstep)
    | tail _ hstep ih => exact (hdepth ((h.parent_iff _ _).mp hstep)).trans ih
  exact fun hbelow => Nat.lt_irrefl _ (hdecrease node hbelow)

/-- Where the same links and handles are found, the same forest is. -/
theorem congr (h : Forest dom kids) {other : Dom}
    (hcontains : ∀ node, dom.contains node = true → other.contains node = true)
    (hlinks : ∀ node, other.links node = dom.links node) : Forest other kids where
  contains_of_mem hmem :=
    ⟨hcontains _ (h.contains_of_mem hmem).1, hcontains _ (h.contains_of_mem hmem).2⟩
  parent_iff child parent := by rw [hlinks, h.parent_iff]
  nodup := h.nodup
  firstChild parent := by rw [hlinks, h.firstChild]
  lastChild parent := by rw [hlinks, h.lastChild]
  previousSibling hsplit := by rw [hlinks, h.previousSibling hsplit]
  nextSibling hsplit := by rw [hlinks, h.nextSibling hsplit]
  alone child := by rw [hlinks]; exact h.alone child
  ranked := h.ranked

theorem empty : Forest Dom.empty fun _ => [] := by
  have hlinks : ∀ node, Dom.empty.links node = {} := fun node =>
    Dom.empty.links_of_not_contains (contains_empty node)
  constructor <;> simp [hlinks]

end Forest

end DomQuery.Dom
