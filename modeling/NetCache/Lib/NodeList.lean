import Mathlib.Data.List.Nodup

/-!
# Lists with node identities

A doubly linked list in the sense of `std::list`: every element sits in a node, an iterator names
a node, and an iterator stays valid until its own node is erased. Nodes are numbered in the order
of their creation, so a number is never used twice; `fresh` and `nodup` carry this. Erasing
through an iterator whose node is gone is undefined and yields `none`.
-/

namespace Lib

/-- The nodes from the front to the back, each with its identity, and the next identity. -/
structure NodeList (α : Type u) where
  nodes : List (Nat × α)
  next : Nat
  fresh : ∀ n ∈ nodes, n.1 < next
  nodup : (nodes.map Prod.fst).Nodup

namespace NodeList

variable {α : Type u}

def empty : NodeList α := ⟨[], 0, by simp, by simp⟩

/-- The elements from the front to the back. -/
def values (l : NodeList α) : List α := l.nodes.map Prod.snd

/-- `push_front`: a new node in front. -/
def pushFront (x : α) (l : NodeList α) : NodeList α where
  nodes := (l.next, x) :: l.nodes
  next := l.next + 1
  fresh := by
    intro n hn
    rcases List.mem_cons.mp hn with rfl | hn
    · exact Nat.lt_succ_self _
    · exact Nat.lt_succ_of_lt (l.fresh n hn)
  nodup := by
    rw [List.map_cons, List.nodup_cons]
    refine ⟨?_, l.nodup⟩
    intro hmem
    obtain ⟨n, hn, heq⟩ := List.mem_map.mp hmem
    exact absurd (l.fresh n hn) (by simp only at heq; omega)

/-- `begin`: the front node, or past the end (an identity that no node has). -/
def begin (l : NodeList α) : Nat := (l.nodes.head?.map Prod.fst).getD l.next

/-- The element that an iterator points at; `none` where its node does not exist. -/
def deref (l : NodeList α) (it : Nat) : Option α := (l.nodes.find? (·.1 == it)).map Prod.snd

/-- `erase` through an iterator; `none` where its node does not exist. -/
def erase (l : NodeList α) (it : Nat) : Option (NodeList α) :=
  if it ∈ l.nodes.map Prod.fst then
    some {
      nodes := l.nodes.filter (·.1 != it)
      next := l.next
      fresh := fun n hn => l.fresh n (List.mem_of_mem_filter hn)
      nodup := l.nodup.sublist (List.filter_sublist.map _) }
  else none

/-- `back`; `none` on the empty list. -/
def back (l : NodeList α) : Option α := l.values.getLast?

@[simp] theorem values_empty : (empty : NodeList α).values = [] := rfl

@[simp] theorem begin_pushFront (x : α) (l : NodeList α) : (l.pushFront x).begin = l.next := rfl

private theorem find_node {ns : List (Nat × α)} (hnd : (ns.map Prod.fst).Nodup) (it : Nat)
    (x : α) : (ns.find? (·.1 == it)).map Prod.snd = some x ↔ (it, x) ∈ ns := by
  induction ns with
  | nil => simp
  | cons n ns ih =>
    rw [List.map_cons, List.nodup_cons] at hnd
    rw [List.find?_cons, List.mem_cons]
    by_cases hit : n.1 = it
    · have habsent : (it, x) ∉ ns := fun h => hnd.1 (hit ▸ List.mem_map_of_mem (f := Prod.fst) h)
      simp only [hit, beq_self_eq_true, Option.map_some, Option.some.injEq, habsent, or_false]
      constructor
      · rintro rfl
        rw [← hit]
      · intro h
        rw [← h]
    · have hne : (it, x) ≠ n := fun h => hit (by rw [← h])
      simpa [beq_eq_false_iff_ne.mpr hit, hne] using ih hnd.2

theorem deref_eq_some {l : NodeList α} {it : Nat} {x : α} :
    l.deref it = some x ↔ (it, x) ∈ l.nodes := find_node l.nodup it x

@[simp] theorem deref_pushFront_next (x : α) (l : NodeList α) :
    (l.pushFront x).deref l.next = some x :=
  deref_eq_some.mpr List.mem_cons_self

/-- A new node leaves every other iterator where it pointed. -/
theorem deref_pushFront {l : NodeList α} {it : Nat} {y : α} (x : α) (h : l.deref it = some y) :
    (l.pushFront x).deref it = some y :=
  deref_eq_some.mpr (List.mem_cons_of_mem _ (deref_eq_some.mp h))

theorem erase_isSome {l : NodeList α} {it : Nat} {x : α} (h : l.deref it = some x) :
    ∃ l', l.erase it = some l' := by
  have hmem : it ∈ l.nodes.map Prod.fst := List.mem_map_of_mem (f := Prod.fst) (deref_eq_some.mp h)
  exact ⟨_, if_pos hmem⟩

theorem nodes_erase {l l' : NodeList α} {it : Nat} (h : l.erase it = some l') :
    l'.nodes = l.nodes.filter (·.1 != it) := by
  unfold erase at h
  split at h
  · cases h; rfl
  · cases h

/-- Erasing one node leaves every other iterator where it pointed. -/
theorem deref_erase {l l' : NodeList α} {it it' : Nat} {y : α} (h : l.erase it = some l')
    (hne : it' ≠ it) (hy : l.deref it' = some y) : l'.deref it' = some y := by
  rw [deref_eq_some] at hy ⊢
  rw [nodes_erase h, List.mem_filter]
  exact ⟨hy, by simpa using hne⟩

private theorem filter_node [BEq α] [LawfulBEq α] {ns : List (Nat × α)}
    (hnd : (ns.map Prod.fst).Nodup) (hv : (ns.map Prod.snd).Nodup) {it : Nat} {x : α}
    (hmem : (it, x) ∈ ns) :
    (ns.filter (·.1 != it)).map Prod.snd = (ns.map Prod.snd).erase x := by
  induction ns with
  | nil => cases hmem
  | cons n ns ih =>
    rw [List.map_cons, List.nodup_cons] at hnd hv
    rcases List.mem_cons.mp hmem with rfl | hmem
    · have hrest : ns.filter (·.1 != it) = ns := by
        apply List.filter_eq_self.mpr
        intro m hm
        have : m.1 ≠ it := fun heq => hnd.1 (List.mem_map.mpr ⟨m, hm, heq⟩)
        simpa using this
      simp [hrest]
    · have hit : n.1 ≠ it := fun heq =>
        hnd.1 (heq ▸ List.mem_map_of_mem (f := Prod.fst) hmem)
      have hx : n.2 ≠ x := fun heq =>
        hv.1 (heq ▸ List.mem_map_of_mem (f := Prod.snd) hmem)
      rw [List.filter_cons_of_pos (by simpa using hit), List.map_cons, List.map_cons,
        List.erase_cons_tail (by simpa using hx), ih hnd.2 hv.2 hmem]

/-- In a list without repetitions, erasing the node of `x` removes `x` from the elements. -/
theorem values_erase [BEq α] [LawfulBEq α] {l l' : NodeList α} {it : Nat} {x : α}
    (hv : l.values.Nodup) (hx : l.deref it = some x) (h : l.erase it = some l') :
    l'.values = l.values.erase x := by
  unfold values
  rw [nodes_erase h]
  exact filter_node l.nodup hv (deref_eq_some.mp hx)

end NodeList

end Lib
