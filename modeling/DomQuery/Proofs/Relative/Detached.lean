import DomQuery.Proofs.Relative.Scoped

/-!
# Where a path leads outside a document

In a tree whose topmost node is an element, the path of an element leads to this element alone
(`Dom.querySelectorAll_path_of_detached`), also where tag names occur again and again.  Unlike in a
document, the path says where it begins: at an `id`, or at `:scope`, which is the topmost element.
From there each step goes to the child with the position that it names.
-/

namespace DomQuery.Dom

/-- The names below the top can be written in a path, and the `id`s of the tree tell its nodes
apart. -/
structure Signposted (dom : Dom) (top : Handle) : Prop where
  tag_written : ∀ node ∈ dom.descendants top, ∀ name, dom.tagName? node = some name →
    name ≠ "" ∧ Identifier.escape name = name
  id_unique : ∀ node ∈ top :: dom.descendants top, ∀ other ∈ top :: dom.descendants top, ∀ id,
    id ≠ "" → dom.attributeValue? node "id" = some id →
      dom.attributeValue? other "id" = some id → node = other
  null_not_mem_id : ∀ node ∈ dom.descendants top, ∀ id, id ≠ "" →
    dom.attributeValue? node "id" = some id → '\x00' ∉ id.toList

namespace Signposted

variable {dom : Dom} {top node parent other : Handle}

theorem plainlyNamed (h : dom.Signposted top) (hdom : dom.Reachable)
    (hsmall : dom.nodes.toList.length < 2147483648) (hnode : node ∈ dom.descendants top)
    (helement : dom.isElement node = true) : dom.PlainlyNamed node :=
  hdom.plainlyNamed helement (h.tag_written node hnode) (h.null_not_mem_id node hnode)
    (hdom.legible hsmall (h.tag_written node hnode)).position_lt

/-- Two nodes of the tree that have an `id` in common are the same. -/
theorem eq_of_pathId? (h : dom.Signposted top) (hnode : node ∈ top :: dom.descendants top)
    (hother : other ∈ top :: dom.descendants top) {id : String} (hid : dom.pathId? node = some id)
    (hid' : dom.pathId? other = some id) : other = node := by
  obtain ⟨hne, hvalue⟩ := attributeValue?_of_pathId? hid
  exact h.id_unique other hother node hnode id hne (attributeValue?_of_pathId? hid').2 hvalue

/-- If the path of the parent leads to the parent alone, the path of the node leads to the node
alone. -/
theorem matchesComplex_path_of_parent (h : dom.Signposted top) (hdom : dom.Reachable)
    (hsmall : dom.nodes.toList.length < 2147483648) (halone : dom.parent? top = none)
    (helement : dom.isElement node = true) (hparent : dom.parent? node = some parent)
    (hparentElement : dom.isElement parent = true) (hmem : parent ∈ top :: dom.descendants top)
    (hsteps : dom.pathSteps (parent :: dom.ancestors parent) ≠ [])
    (habove : ∀ above ∈ top :: dom.descendants top,
      dom.matchesComplex (some top) (dom.pathSelector (parent :: dom.ancestors parent)) above =
        true ↔ above = parent)
    (hother : other ∈ top :: dom.descendants top) :
    dom.matchesComplex (some top) (dom.pathSelector (node :: dom.ancestors node)) other = true ↔
      other = node := by
  have hnode : node ∈ dom.descendants top :=
    hdom.forest.mem_descendants_of_parent hparent (List.mem_cons.mp hmem)
  rw [hdom.forest.ancestors_of_parent hparent, pathSelector]
  cases hid : dom.pathId? node with
  | some id =>
      refine (matchesCompound_id_iff hdom _ (ne_empty_of_pathId? hid)).trans ⟨fun hid' => ?_, ?_⟩
      · exact h.eq_of_pathId? (List.mem_cons_of_mem _ hnode) hother hid hid'
      · rintro rfl
        exact hid
  | none =>
      simp only [if_neg hsteps]
      rw [matchesComplex_combined_iff,
        (h.plainlyNamed hdom hsmall hnode helement).matchesCompound_step_iff hdom _
          (dom.isDocument_eq_false_of_isElement hparentElement)
          fun above _ => (hdom.forest.elementChildren_length_le_toList above).trans_lt hsmall]
      constructor
      · rintro ⟨⟨htag, -, hposition⟩, above, hcandidate, hmatches⟩
        obtain ⟨hup, -⟩ := Option.filter_eq_some_iff.mp (Option.mem_toList.mp hcandidate)
        -- the top has no parent, so the other node is below it
        have hbelow : other ∈ dom.descendants top := by
          refine (List.mem_cons.mp hother).resolve_left ?_
          rintro rfl
          exact absurd (halone.symm.trans hup) (by simp)
        have hrest := hdom.forest.parent_of_mem_descendants hbelow hup
        obtain rfl := (habove above (List.mem_cons.mpr hrest)).mp hmatches
        obtain ⟨name, hname⟩ := exists_tagName helement
        exact eq_of_elementPosition? hdom hparent hup helement
          (isElement_of_tagName? (htag.trans hname)) hposition
      · rintro rfl
        refine ⟨⟨rfl, ⟨parent, hparent⟩, rfl⟩, parent, ?_, (habove parent hmem).mpr rfl⟩
        exact Option.mem_toList.mpr (Option.filter_eq_some_iff.mpr ⟨hparent, hparentElement⟩)

/-- Within the tree, the selector of the path of an element is matched by that element alone. -/
theorem matchesComplex_pathSelector_iff (h : dom.Signposted top) (hdom : dom.Reachable)
    (hsmall : dom.nodes.toList.length < 2147483648) (halone : dom.parent? top = none)
    (htop : dom.isElement top = true) (hrooted : dom.Rooted top node)
    (hother : other ∈ top :: dom.descendants top) :
    dom.matchesComplex (some top) (dom.pathSelector (node :: dom.ancestors node)) other = true ↔
      other = node := by
  induction hrooted generalizing other with
  | top helement hparent =>
      -- the path of the top is `:scope`
      have hancestors := hdom.forest.ancestors_of_alone halone
      have hsteps : dom.pathSteps (top :: dom.ancestors top) ≠ [] := by
        rw [hancestors, pathSteps, dom.isDocument_eq_false_of_isElement htop, if_neg (by simp)]
        simp
      refine h.matchesComplex_path_of_parent hdom hsmall halone helement hparent htop
        List.mem_cons_self hsteps (fun above _ => ?_) hother
      rw [hancestors, pathSelector, matchesComplex_scope_iff, and_iff_right_iff_imp]
      rintro rfl
      exact htop
  | child helement hparent hrest ih =>
      exact h.matchesComplex_path_of_parent hdom hsmall halone helement hparent hrest.isElement
        (List.mem_cons_of_mem _ (hrest.mem_descendants hdom)) (hrest.pathSteps_ne_nil hdom)
        (fun _ => ih) hother

end Signposted

/-! ### Queries -/

/-- **Outside a document the path of an element finds that element alone**, if only elements stand
above it. -/
theorem querySelectorAll_path_of_detached {dom : Dom} {node : Handle} (hdom : dom.Reachable)
    (hsmall : dom.nodes.toList.length < 2147483648) (helement : dom.isElement node = true)
    (hparent : dom.parent? node ≠ none)
    (hline : ∀ other ∈ dom.ancestors node, dom.isElement other = true)
    (h : dom.Signposted (dom.root node)) :
    dom.querySelectorAll (dom.root node) (dom.path node) = .ok [node] := by
  have halone := hdom.forest.parent_root node
  have hnode : node ∈ dom.descendants (dom.root node) := by
    refine (hdom.forest.eq_or_mem_descendants_root node).resolve_left fun heq => hparent ?_
    rwa [heq] at halone
  have htop : dom.isElement (dom.root node) = true :=
    hline _ (hdom.forest.mem_ancestors.mpr (hdom.forest.mem_descendants.mp hnode))
  have hrooted := Rooted.of_ancestors hdom hnode helement fun other hother _ => hline other hother
  have hread := (hrooted.spelled_path hdom halone fun _ hother =>
    h.plainlyNamed hdom hsmall (hother.mem_descendants hdom) hother.isElement).ofText
  rw [String.ofList_toList] at hread
  rw [querySelectorAll_of_isElement htop hread, Except.ok.injEq]
  have hnodup := (hdom.forest.nodup_descendants (dom.root node)).filter
    (dom.matchesAny (some (dom.root node)) [dom.pathSelector (node :: dom.ancestors node)])
  refine List.perm_singleton.mp ((List.perm_ext_iff_of_nodup hnodup (by simp)).mpr fun other => ?_)
  rw [List.mem_filter, List.mem_singleton, matchesAny, matchesAny, Bool.or_false]
  constructor
  · rintro ⟨hother, hmatches⟩
    exact (h.matchesComplex_pathSelector_iff hdom hsmall halone htop hrooted
      (List.mem_cons_of_mem _ hother)).mp hmatches
  · rintro rfl
    exact ⟨hnode, (h.matchesComplex_pathSelector_iff hdom hsmall halone htop hrooted
      (List.mem_cons_of_mem _ hnode)).mpr rfl⟩

/-! ### A tree of elements with one tag name -/

/-- The edits that build a tree of four elements `a`, two of them with an `id`, in which the second
one holds the others. -/
def towerEdits : List Edit :=
  [.createElement "a" [⟨"id", "x"⟩], .createElement "a" [], .createElement "a" [⟨"id", "y"⟩],
    .createElement "a" [], .appendChild ⟨0, 0⟩ ⟨1, 0⟩, .appendChild ⟨1, 0⟩ ⟨2, 0⟩,
    .appendChild ⟨1, 0⟩ ⟨3, 0⟩]

def tower : Dom :=
  (Dom.empty.run? towerEdits).getD Dom.empty

theorem reachable_tower : tower.Reachable :=
  Reachable.empty.run? (show Dom.empty.run? towerEdits = some tower from rfl)

theorem signposted_tower : tower.Signposted ⟨0, 0⟩ where
  tag_written := by
    have hnames : ∀ node ∈ tower.descendants ⟨0, 0⟩, ∀ name ∈ tower.tagName? node,
        name ≠ "" ∧ Identifier.escape name = name := by decide +kernel
    exact hnames
  id_unique := by
    have hids : ∀ node ∈ ⟨0, 0⟩ :: tower.descendants ⟨0, 0⟩,
        ∀ other ∈ ⟨0, 0⟩ :: tower.descendants ⟨0, 0⟩, ∀ id ∈ tower.attributeValue? node "id",
          tower.attributeValue? other "id" = some id → node = other := by decide +kernel
    exact fun node hnode other hother id _ => hids node hnode other hother id
  null_not_mem_id := by
    have hids : ∀ node ∈ tower.descendants ⟨0, 0⟩, ∀ id ∈ tower.attributeValue? node "id",
        '\x00' ∉ id.toList := by decide +kernel
    exact fun node hnode id _ => hids node hnode id

/-- The path of the last element goes through the second one. -/
theorem querySelectorAll_path_tower :
    tower.querySelectorAll ⟨0, 0⟩ ":scope > a:nth-child(1) > a:nth-child(2)" = .ok [⟨3, 0⟩] := by
  have hroot : tower.root ⟨3, 0⟩ = ⟨0, 0⟩ := by decide +kernel
  have hpath : tower.path ⟨3, 0⟩ = ":scope > a:nth-child(1) > a:nth-child(2)" := by decide +kernel
  have hfound := querySelectorAll_path_of_detached reachable_tower (by decide +kernel)
    (show tower.isElement ⟨3, 0⟩ = true from rfl) (by decide +kernel) (by decide +kernel)
    (hroot ▸ signposted_tower)
  rwa [hroot, hpath] at hfound

end DomQuery.Dom
