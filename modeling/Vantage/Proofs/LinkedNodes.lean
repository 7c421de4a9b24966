/-
**Trees of nodes that lie in a store and are linked by slot.**

A tree is laid out in a store when each of its nodes lies in its slot, with its children under their
slots. A node that is put in a place is linked to the node above, and the other nodes stay as they
are: so what lies elsewhere in the store is not touched.

Main definitions:

* `Subtree.cell`, `Slots.Shows` — a node as it lies in a store, and a tree all of whose nodes do;
* `Work.Opens` — what stands at a place;
* `Work.Puts` — nodes have been put in places, and apart from some slots nothing else was changed.

Main results:

* `Slots.Shows.congr` — a tree is laid out in a store whatever lies in the slots of other nodes;
* `Placing.standing_eq`, `Placing.exists_link` — **finding a node in its place, and putting one
  there**;
* `Work.Puts.trans`, `Work.Puts.get?_eq`, `Work.Puts.shows`, `Work.Puts.opens` — **what is put in
  places leaves other places and trees alone**.
-/

import Vantage.Proofs.InPlace
import Vantage.Proofs.Subtrees
import Vantage.Proofs.Undoing

set_option relaxedAutoImplicit false
set_option autoImplicit false

namespace Vantage

/-! ### Links -/

namespace Node

variable {π κ κ' : Type}

@[simp] theorem relink_nil (node : Node π κ) : node.relink [] = node := rfl

theorem relink_append (node : Node π κ) (links links' : List (Nat × κ)) :
    node.relink (links ++ links') = (node.relink links).relink links' :=
  List.foldl_append

@[simp] theorem fanout_relink (node : Node π κ) (links : List (Nat × κ)) :
    (node.relink links).fanout = node.fanout := by
  cases node with
  | leaf l => rw [relink_leaf]
  | branch b => rw [relink_branch]; rfl

theorem ascending_relink {node : Node π κ} (h : Keyed.Ascending node.children)
    (links : List (Nat × κ)) : Keyed.Ascending (node.relink links).children := by
  cases node with
  | leaf l => rwa [relink_leaf]
  | branch b =>
      rw [relink_branch]
      exact Keyed.ascending_setAll _ h

/-- An index under which nothing is linked keeps its child. -/
theorem get?_children_relink {node : Node π κ} {links : List (Nat × κ)} {index : Nat}
    (h : index ∉ links.map Prod.fst) :
    Keyed.get? index (node.relink links).children = Keyed.get? index node.children := by
  cases node with
  | leaf l => rw [relink_leaf]
  | branch b =>
      rw [relink_branch]
      refine Keyed.get?_setAll_of_not_mem fun hmem => h ?_
      obtain ⟨x, hx, rfl⟩ := List.mem_map.1 hmem
      exact List.mem_map_of_mem (List.mem_of_mem_filter hx)

/-- Linking the child that stands there changes nothing. -/
theorem relink_self {node : Node π κ} {index : Nat} {child : κ}
    (hasc : Keyed.Ascending node.children) (h : Keyed.get? index node.children = some child) :
    node.relink [(index, child)] = node := by
  cases node with
  | leaf l => rw [relink_leaf]
  | branch b =>
      have hsame : Keyed.set index child b.children = b.children := Keyed.set_eq_self hasc h
      rw [relink_branch]
      by_cases hindex : index < b.fanout
      · rw [List.filter_cons_of_pos (by simpa using hindex), List.filter_nil, Keyed.setAll_cons,
          Keyed.setAll_nil]
        dsimp only
        rw [hsame]
      · rw [List.filter_cons_of_neg (by simpa using hindex), List.filter_nil, Keyed.setAll_nil]

theorem mapChildren_relink (f : κ → κ') (node : Node π κ) (links : List (Nat × κ)) :
    (node.relink links).mapChildren f =
      (node.mapChildren f).relink (links.map fun x => (x.1, f x.2)) := by
  cases node with
  | leaf l => rw [relink_leaf, mapChildren, relink_leaf]
  | branch b =>
      rw [relink_branch, mapChildren, mapChildren, relink_branch, Branch.mapChildren,
        Keyed.map_setAll, List.filter_map]
      rfl

/-- A node takes a child under an index for which it has a place. -/
theorem setChild_eq {node : Node π κ} {index : Nat} (h : index < node.fanout) (child : κ) :
    node.setChild index child = .ok (node.relink [(index, child)]) := by
  cases node with
  | leaf l => exact absurd h (Nat.not_lt_zero _)
  | branch b =>
      have hset : b.setChild index child =
          .ok { b with children := Keyed.set index child b.children } := if_pos h
      rw [relink_branch, List.filter_cons_of_pos (by simpa [fanout] using h), setChild, hset]
      rfl

theorem child?_eq {node : Node π κ} {index : Nat} (h : index < node.fanout) :
    node.child? index = .ok (Keyed.get? index node.children) := by
  cases node with
  | leaf l => exact absurd h (Nat.not_lt_zero _)
  | branch b => exact if_pos h

end Node

/-! ### Trees in a store -/

/-- The root as it lies in a store. -/
def Subtree.cell (t : Subtree) : Cell := t.node.mapChildren Subtree.slot

namespace Slots

variable {nodes nodes' : Slots Cell} {t : Subtree}

/-- Every node of the tree lies in its slot. -/
def Shows (nodes : Slots Cell) (t : Subtree) : Prop :=
  ∀ s ∈ t.all, nodes.get? s.slot = some s.cell

namespace Shows

theorem root (h : nodes.Shows t) : nodes.get? t.slot = some t.cell := h t t.mem_all_self

theorem child (h : nodes.Shows t) {x : Nat × Subtree} (hx : x ∈ t.children) :
    nodes.Shows x.2 :=
  fun s hs => h s (Subtree.mem_all_of_child hx hs)

theorem exists_get? (h : nodes.Shows t) {slot : Nat} (hslot : slot ∈ t.slots) :
    ∃ cell, nodes.get? slot = some cell := by
  obtain ⟨s, hs, hslot⟩ := List.mem_flatMap.1 hslot
  obtain rfl := List.mem_singleton.1 hslot
  exact ⟨s.cell, h s hs⟩

/-- A tree is laid out whatever lies in the slots of other nodes. -/
theorem congr (h : nodes.Shows t)
    (heq : ∀ slot ∈ t.slots, nodes'.get? slot = nodes.get? slot) : nodes'.Shows t := by
  intro s hs
  rw [heq s.slot (List.mem_flatMap.2 ⟨s, hs, List.mem_singleton_self _⟩), h s hs]

/-- A tree is laid out when its root and its children are. -/
theorem of_children (hroot : nodes.get? t.slot = some t.cell)
    (hbelow : ∀ x ∈ t.children, nodes.Shows x.2) : nodes.Shows t := by
  intro s hs
  rw [Subtree.all_eq] at hs
  rcases List.mem_cons.1 hs with rfl | hs
  · exact hroot
  · obtain ⟨x, hx, hs⟩ := List.mem_flatMap.1 hs
    exact hbelow x hx s hs

end Shows

end Slots

/-! ### Places -/

namespace Site

/-- The node above a place. -/
def parent? : Site → Option Nat
  | .root => none
  | .child parent _ => some parent

/-- The links that are made at a node when another is put in a place. -/
def links (site : Site) (slot parent : Nat) : List (Nat × Nat) :=
  match site with
  | .root => []
  | .child above index => if above = parent then [(index, slot)] else []

/-- The root once a node has been put in a place. -/
def rootFor (site : Site) (slot : Nat) (root : Option Nat) : Option Nat :=
  match site with
  | .root => some slot
  | .child _ _ => root

theorem links_of_ne {site : Site} {slot parent : Nat} (h : site.parent? ≠ some parent) :
    site.links slot parent = [] := by
  cases site with
  | root => rfl
  | child above index => exact if_neg fun heq => h (congrArg some heq)

end Site

/-- The links that are made at a node when others are put in places. -/
def linksAt (placed : List (Site × Nat)) (parent : Nat) : List (Nat × Nat) :=
  placed.flatMap fun x => x.1.links x.2 parent

/-- The root once nodes have been put in places. -/
def rootAfter (placed : List (Site × Nat)) (root : Option Nat) : Option Nat :=
  placed.foldl (fun root x => x.1.rootFor x.2 root) root

theorem linksAt_append (placed placed' : List (Site × Nat)) (parent : Nat) :
    linksAt (placed ++ placed') parent = linksAt placed parent ++ linksAt placed' parent :=
  List.flatMap_append

theorem linksAt_eq_nil {placed : List (Site × Nat)} {parent : Nat}
    (h : ∀ x ∈ placed, x.1.parent? ≠ some parent) : linksAt placed parent = [] :=
  List.flatMap_eq_nil_iff.2 fun x hx => Site.links_of_ne (h x hx)

/-- Where no link is made: an index is linked at a node when its place is among those given. -/
theorem not_mem_linksAt {placed : List (Site × Nat)} {parent index : Nat}
    (h : Site.child parent index ∉ placed.map Prod.fst) :
    index ∉ (linksAt placed parent).map Prod.fst := by
  intro hmem
  obtain ⟨y, hy, rfl⟩ := List.mem_map.1 hmem
  obtain ⟨⟨site, slot⟩, hx, hy⟩ := List.mem_flatMap.1 hy
  cases site with
  | root => exact absurd hy List.not_mem_nil
  | child above index =>
      simp only [Site.links] at hy
      split at hy
      next heq =>
        obtain rfl := List.mem_singleton.1 hy
        exact h (heq ▸ List.mem_map_of_mem hx)
      next => exact absurd hy List.not_mem_nil

theorem rootAfter_eq_self {placed : List (Site × Nat)} (h : Site.root ∉ placed.map Prod.fst)
    (root : Option Nat) : rootAfter placed root = root := by
  induction placed with
  | nil => rfl
  | cons x rest ih =>
      obtain ⟨hne, hrest⟩ := List.ne_and_not_mem_of_not_mem_cons h
      obtain ⟨site, slot⟩ := x
      cases site with
      | root => exact absurd rfl hne
      | child parent index => exact ih hrest

namespace Work

variable {w w₁ w₂ : Work} {site : Site} {standing : Option Nat} {spare spare' : List Nat}
  {placed placed' : List (Site × Nat)}

/-- What stands at a place: nothing or a node, and there is room for one. -/
inductive Opens (w : Work) : Site → Option Nat → Prop where
  | root : Opens w .root w.root
  | child {parent index : Nat} {cell : Cell} (hcell : w.nodes.get? parent = some cell)
      (hindex : index < cell.fanout) (hasc : Keyed.Ascending cell.children) :
      Opens w (.child parent index) (Keyed.get? index cell.children)

/-- Between two moments nodes have been put in places; apart from the given slots, each node is what
it was, but for the links to these. -/
structure Puts (w w' : Work) (spare : List Nat) (placed : List (Site × Nat)) : Prop where
  nodes : ∀ slot cell, slot ∉ spare → w.nodes.get? slot = some cell →
    w'.nodes.get? slot = some (cell.relink (linksAt placed slot))
  root : w'.root = rootAfter placed w.root

namespace Puts

theorem refl (w : Work) : w.Puts w [] [] := ⟨fun _ _ _ h => h, rfl⟩

theorem trans (h : w.Puts w₁ spare placed) (h' : w₁.Puts w₂ spare' placed') :
    w.Puts w₂ (spare ++ spare') (placed ++ placed') where
  nodes slot cell hspare hcell := by
    obtain ⟨hfirst, hsecond⟩ := not_or.1 (mt List.mem_append.2 hspare)
    rw [linksAt_append, Node.relink_append]
    exact h'.nodes slot _ hsecond (h.nodes slot cell hfirst hcell)
  root := by
    rw [h'.root, h.root, rootAfter, rootAfter, rootAfter, List.foldl_append]

/-- A node to which no place belongs stays as it is. -/
theorem get?_eq (h : w.Puts w₁ spare placed) {slot : Nat} {cell : Cell} (hspare : slot ∉ spare)
    (hcell : w.nodes.get? slot = some cell) (hsites : ∀ x ∈ placed, x.1.parent? ≠ some slot) :
    w₁.nodes.get? slot = some cell := by
  rw [h.nodes slot cell hspare hcell, linksAt_eq_nil hsites, Node.relink_nil]

/-- A tree to whose nodes no place belongs is laid out as before. -/
theorem shows (h : w.Puts w₁ spare placed) {t : Subtree} (ht : w.nodes.Shows t)
    (hspare : ∀ slot ∈ t.slots, slot ∉ spare)
    (hsites : ∀ x ∈ placed, ∀ parent ∈ t.slots, x.1.parent? ≠ some parent) :
    w₁.nodes.Shows t := by
  refine ht.congr fun slot hslot => ?_
  obtain ⟨cell, hcell⟩ := ht.exists_get? hslot
  rw [h.get?_eq (hspare slot hslot) hcell fun x hx => hsites x hx slot hslot, hcell]

/-- What stands at another place stays there. -/
theorem opens (h : w.Puts w₁ spare placed) (ho : w.Opens site standing)
    (hspare : ∀ parent, site.parent? = some parent → parent ∉ spare)
    (hsite : site ∉ placed.map Prod.fst) : w₁.Opens site standing := by
  cases ho with
  | root =>
      have hroot : w₁.root = w.root := by rw [h.root, rootAfter_eq_self hsite]
      exact hroot ▸ .root
  | @child parent index cell hcell hindex hasc =>
      rw [← Node.get?_children_relink (not_mem_linksAt hsite)]
      exact .child (h.nodes parent cell (hspare parent rfl) hcell)
        (by rwa [Node.fanout_relink]) (Node.ascending_relink hasc _)

end Puts

end Work

/-! ### Finding a node in its place, and putting one there -/

/-- The same with other nodes noted as saved. -/
def Work.noting (w : Work) (touched : Std.TreeSet Nat) (saved : List (Nat × Cell)) : Work :=
  { w with journal := { w.journal with touched, saved } }

namespace Placing

variable {w : Work} {site : Site} {standing : Option Nat}

theorem standing_eq (h : w.Opens site standing) :
    Placing.standing site w = .ok (.ok standing, w) := by
  cases h with
  | root => rfl
  | child hcell hindex hasc =>
      simp only [Placing.standing, get_bind, breach_bind, Slots.cell_eq_ok_iff.2 hcell, ok_bind,
        Node.child?_eq hindex]
      rfl

/-- Saving a node changes nothing but what the journal has saved. -/
theorem exists_save {slot : Nat} {cell : Cell} (h : w.nodes.get? slot = some cell) :
    ∃ touched saved, w.save slot = .ok (w.noting touched saved) := by
  unfold Work.save
  split
  · exact ⟨_, _, rfl⟩
  · rw [Slots.cell_eq_ok_iff.2 h]
    exact ⟨_, _, rfl⟩

/-- **A node is put in its place**: the node above is linked to it, and the others stay as they
are. -/
theorem exists_link (h : w.Opens site standing) (slot : Nat) :
    ∃ nodes root touched saved,
      link site slot w = .ok (.ok (), { w.noting touched saved with nodes, root }) ∧
      nodes.units = w.nodes.units ∧
      (∀ other, nodes.get? other =
        (w.nodes.get? other).map fun cell => cell.relink (site.links slot other)) ∧
      root = site.rootFor slot w.root := by
  cases h with
  | root => exact ⟨_, _, _, _, rfl, rfl, fun other => by simp [Site.links], rfl⟩
  | @child parent index cell hcell hindex hasc =>
      obtain ⟨touched, saved, hsave⟩ := exists_save hcell
      refine ⟨(w.nodes.replace parent (cell.relink [(index, slot)])).2, w.root, touched, saved, ?_,
        Slots.units_replace _ _ _, fun other => ?_, rfl⟩
      · have hfound : (w.noting touched saved).nodes.cell parent = .ok cell :=
          Slots.cell_eq_ok_iff.2 hcell
        rw [link_child, hsave, ok_bind, hfound, ok_bind, Node.setChild_eq hindex]
        rfl
      · rcases eq_or_ne other parent with rfl | hne
        · rw [Slots.get?_replace_self _ hcell, hcell]
          simp [Site.links]
        · have hparent : (Site.child parent index).parent? ≠ some other :=
            fun heq => hne (Option.some.inj heq).symm
          rw [Slots.get?_replace_of_ne _ _ hne, Site.links_of_ne hparent]
          simp

end Placing

end Vantage
