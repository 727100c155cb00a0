import DomQuery.Dom.Walk
import Mathlib.Data.List.Nodup
import Mathlib.Logic.Relation

/-!
# Trails

`Dom.follow` stops after a given number of nodes, so it returns a list whether the walk ends or
not.  A *trail* is a walk that ends: `Trail step start nodes` says that following the step from
the start visits exactly the given nodes, in this order, and that there is nothing to follow
from the last one.

A trail is determined by its start, visits no node twice, and is what `Dom.follow` returns as
soon as the limit is not smaller than the trail (`Trail.follow_eq`).
-/

namespace DomQuery.Dom

/-- The walk from a start along the step: the nodes that it visits before it ends. -/
inductive Trail (step : Handle → Option Handle) : Option Handle → List Handle → Prop where
  | nil : Trail step none []
  | cons {node : Handle} {nodes : List Handle} :
      Trail step (step node) nodes → Trail step (some node) (node :: nodes)

/-- The step goes from the first node to the second. -/
def Leads (step : Handle → Option Handle) (first second : Handle) : Prop :=
  step first = some second

namespace Trail

variable {step : Handle → Option Handle} {start : Option Handle} {nodes : List Handle}

theorem head?_eq (h : Trail step start nodes) : nodes.head? = start := by
  cases h <;> rfl

theorem unique (h : Trail step start nodes) {others : List Handle}
    (hothers : Trail step start others) : nodes = others := by
  induction h generalizing others with
  | nil => cases hothers; rfl
  | cons _ ih =>
      cases hothers with
      | cons hrest => rw [ih hrest]

/-- What a trail visits after one of its nodes is the trail from the step of that node. -/
theorem tail_of_append {before after : List Handle} {node : Handle}
    (h : Trail step start (before ++ node :: after)) : Trail step (step node) after := by
  induction before generalizing start with
  | nil =>
      cases h with
      | cons hrest => exact hrest
  | cons first before ih =>
      cases h with
      | cons hrest => exact ih hrest

/-- A walk that came back to a node would never end. -/
theorem nodup (h : Trail step start nodes) : nodes.Nodup := by
  induction h with
  | nil => exact List.nodup_nil
  | @cons node nodes hrest ih =>
      refine List.nodup_cons.mpr ⟨fun hmem => ?_, ih⟩
      obtain ⟨before, after, rfl⟩ := List.append_of_mem hmem
      have heq := hrest.tail_of_append.unique hrest
      have hlength := congrArg List.length heq
      simp only [List.length_append, List.length_cons] at hlength
      omega

theorem follow_eq (h : Trail step start nodes) {limit : Nat} (hlimit : nodes.length ≤ limit) :
    follow step limit start = nodes := by
  induction h generalizing limit with
  | nil => cases limit <;> rfl
  | cons _ ih =>
      cases limit with
      | zero => simp at hlimit
      | succ limit =>
          rw [follow, ih (by simpa using hlimit)]

/-- A trail visits the nodes that the step leads to from its start. -/
theorem mem_iff (h : Trail step start nodes) {node : Handle} :
    node ∈ nodes ↔ ∃ first, start = some first ∧ Relation.ReflTransGen (Leads step) first node := by
  induction h with
  | nil => simp
  | @cons first nodes _ ih =>
      simp only [List.mem_cons, ih, Option.some.injEq, exists_eq_left']
      constructor
      · rintro (rfl | ⟨second, hstep, hreach⟩)
        · exact Relation.ReflTransGen.refl
        · exact Relation.ReflTransGen.head hstep hreach
      · intro hreach
        rcases Relation.ReflTransGen.cases_head hreach with rfl | ⟨second, hstep, hreach⟩
        · exact Or.inl rfl
        · exact Or.inr ⟨second, hstep, hreach⟩

/-- The trail from the step of a node visits the nodes that one or more steps lead to. -/
theorem mem_iff_transGen {first node : Handle} (h : Trail step (step first) nodes) :
    node ∈ nodes ↔ Relation.TransGen (Leads step) first node := by
  rw [h.mem_iff, Relation.TransGen.head'_iff]
  rfl

/-- No node lies on the trail from its own step. -/
theorem not_transGen_self {node : Handle} (h : Trail step (step node) nodes) :
    ¬ Relation.TransGen (Leads step) node node := by
  intro hloop
  exact (List.nodup_cons.mp (cons h).nodup).1 (h.mem_iff_transGen.mpr hloop)

/-- A list is a trail if the step leads from each of its nodes to the next one. -/
theorem of_splits
    (hsplits : ∀ before node after, nodes = before ++ node :: after → step node = after.head?) :
    Trail step nodes.head? nodes := by
  induction nodes with
  | nil => exact nil
  | cons node rest ih =>
      refine cons ?_
      rw [hsplits [] node rest rfl]
      refine ih fun before other after heq => ?_
      exact hsplits (node :: before) other after (by rw [heq, List.cons_append])

end Trail

end DomQuery.Dom
