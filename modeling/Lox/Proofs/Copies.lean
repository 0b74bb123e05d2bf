import Lox.Proofs.Binding
import Lox.Proofs.Mirroring

/-! # Copies of code

A copy of code is the same code with numbers that are not in use yet, so that a machine may know other distances of it
than of the code itself.  What is known of the code is known of its copy in a table that has learnt the distances for
the numbers of the copy (`Machine.Closed.known_copy`).  Actions that go together whatever two tables know of copies are
equivalent (`Machine.Closed.equivalent`).  A copy that keeps all distances does what the code does
(`Machine.Closed.original`). -/

namespace Lox

open Lox.Action

/-! ### Places -/

section places

variable (f : NodeId → NodeId)

/-- Code with other numbers stands at the places where the code stands. -/
theorem Stmt.expressions_renumber (s : Stmt NodeId) (around : Surroundings) :
    (s.map f id).expressions around = (s.expressions around).map (Placed.map f id) := by
  have h := s.expressions_map f id around
  rwa [Surroundings.mapNames_id] at h

theorem Use.sound_renumber {u : Use} (h : u.Sound) : (u.map f id).Sound where
  around := by
    change Surroundings.Sound (u.around.mapNames id)
    rw [Surroundings.mapNames_id]
    exact h.around
  spelled := h.spelled
  own t ht := by
    change ∃ all before outer, u.around.mapNames id = .names all before :: outer ∧ t ∈ all
    rw [Surroundings.mapNames_id]
    have hi : u.initializing.map id = some t := ht
    rw [Option.map_id, id] at hi
    exact h.own t hi

theorem distancesOf_renumber (xs : List Placed) :
    distancesOf ((xs.map (Placed.map f id)).flatMap Placed.uses) =
      (distancesOf (xs.flatMap Placed.uses)).relabel f := by
  have huses : (xs.map (Placed.map f id)).flatMap Placed.uses = (xs.flatMap Placed.uses).map (Use.map f id) := by
    rw [List.flatMap_map, List.map_flatMap]
    exact List.flatMap_congr fun x _ => Placed.uses_map f id x
  rw [huses, distancesOf_map (g := id) fun u _ => u.kept_of_text fun _ => rfl]

end places

/-- What is known of code is known in a table with the same distances. -/
theorem AllKnown.congr {T T' : Std.HashMap NodeId Nat} {bound : NodeId} {xs : List Placed} (h : AllKnown T bound xs)
    (hT : ∀ i : NodeId, T'[i]? = T[i]?) : AllKnown T' bound xs :=
  fun x hx u hu => { h x hx u hu with entry := (hT u.ref.id).trans (h x hx u hu).entry }

/-- What is known of code is known of a copy, where the table has the same distances. -/
theorem AllKnown.copy {T T' : Std.HashMap NodeId Nat} {bound k : NodeId} {xs : List Placed}
    (h : AllKnown T bound xs) (hT : ∀ i, T'[i + k]? = T[i]?) :
    AllKnown T' (bound + k) (xs.map (Placed.map (· + k) id)) := by
  intro x' hx' u' hu'
  obtain ⟨x, hx, rfl⟩ := List.mem_map.mp hx'
  rw [Placed.uses_map] at hu'
  obtain ⟨u, hu, rfl⟩ := List.mem_map.mp hu'
  have hk := h x hx u hu
  have hkept : u.Kept id := u.kept_of_text fun _ => rfl
  exact ⟨(hT _).trans (hk.entry.trans hkept.distance.symm), Nat.add_lt_add_right hk.lt k, Use.sound_renumber _ hk.sound,
    (Use.allowed_map hkept _).mpr hk.allowed⟩

/-! ### Tables -/

/-- A table has what it lists. -/
theorem getElem?_insertMany_toList (T : Std.HashMap NodeId Nat) (i : NodeId) :
    ((∅ : Std.HashMap NodeId Nat).insertMany T.toList)[i]? = T[i]? := by
  cases h : T[i]? with
  | some d =>
      exact Std.HashMap.getElem?_insertMany_list_of_mem (k := i) (by simp) Std.HashMap.distinct_keys_toList
        (Std.HashMap.mem_toList_iff_getElem?_eq_some.mpr h)
  | none =>
      refine (Std.HashMap.getElem?_insertMany_list_of_contains_eq_false ?_).trans Std.HashMap.getElem?_empty
      rw [List.contains_eq_mem, decide_eq_false_iff_not]
      intro hm
      obtain ⟨p, hp, rfl⟩ := List.mem_map.mp hm
      exact nomatch h.symm.trans (Std.HashMap.mem_toList_iff_getElem?_eq_some.mp hp)

/-- A table keeps what it knows of numbers before those of a copy. -/
theorem getElem?_insertMany_copy {T : Std.HashMap NodeId Nat} {k i : NodeId} (ds : Distances) (hi : i < k) :
    (T.insertMany (ds.relabel (· + k)))[i]? = T[i]? := by
  refine Std.HashMap.getElem?_insertMany_list_of_contains_eq_false ?_
  rw [List.contains_eq_mem, decide_eq_false_iff_not]
  intro hm
  obtain ⟨p, hp, rfl⟩ := List.mem_map.mp hm
  obtain ⟨q, -, rfl⟩ := List.mem_map.mp hp
  exact Nat.not_lt.mpr (Nat.le_add_left k q.1) hi

/-- What two runs know when each has learnt distances of copies, over a table that both had. -/
def Tables.copies (T : Std.HashMap NodeId Nat) (next last : NodeId) (ds ds' : Distances) : Tables :=
  (Tables.both T next).learn (ds.relabel (· + next)) (ds'.relabel (· + next)) (last + next)

theorem Tables.le_copies (T : Std.HashMap NodeId Nat) (next last : NodeId) (ds ds' : Distances) :
    (Tables.both T next).Le (Tables.copies T next last ds ds') where
  known := Nat.le_add_left next last
  left _ hi := getElem?_insertMany_copy ds hi
  right _ hi := getElem?_insertMany_copy ds' hi

/-! ### Runs -/

/-- The machine that has learnt distances for the numbers of copies, which are by `next` greater. -/
def Machine.withCopies (m : Machine) (next : NodeId) (ds : Distances) : Machine :=
  Session.learn m (ds.relabel (· + next))

namespace Machine.Closed

variable {S : Settings} {m : Machine} {next last : NodeId} (hm : m.Closed next) {ds ds' : Distances}

include hm

/-- What is known of code is known of its copy. -/
theorem known_copy {xs : List Placed} (h : AllKnown ((∅ : Std.HashMap NodeId Nat).insertMany ds) last xs) :
    AllKnown (m.withCopies next ds).distances (last + next) (xs.map (Placed.map (· + next) id)) :=
  h.copy (getElem?_insertMany_relabel ds fun i =>
    (hm.fresh _ (Nat.le_add_left next i)).trans Std.HashMap.getElem?_empty.symm)

/-- Machines that have learnt of copies stand beside each other. -/
theorem abreast : Abreast (.copies m.distances next last ds ds') (List.range m.heap.frames.size)
    (m.withCopies next ds) (m.withCopies next ds') :=
  ⟨hm.beside.mono (Tables.le_copies _ _ _ _ _), rfl, rfl, rfl, rfl, rfl⟩

/-- Actions that go together are equivalent in a machine that has learnt of copies. -/
theorem equivalent (hS : S.lookup = .byDistance) {run run' : Nat → Action Unit} {units : Nat}
    (h : ∀ {p q f g}, Spare p q units f g → Together (.copies m.distances next last ds ds') p q
      (List.range m.heap.frames.size) m.env m.env (run f) (run' g) fun _ _ _ => True) :
    Equivalent (Mirrored S next m.heap.frames.size) (fun f => run f (m.withCopies next ds))
      fun g => run' g (m.withCopies next ds') :=
  .of_together hm.abreast h fun he hr hr' => he.mirrored hS (Tables.le_copies _ _ _ _ _) (List.prefix_refl _) hr hr' rfl

/-- A copy that keeps all distances does what the code does. -/
theorem original {run : Nat → Finish} {s : Stmt NodeId}
    (h : Equivalent (Mirrored S next m.heap.frames.size) run
      fun g => exec S g (s.map (· + next) id) (m.withCopies next m.distances.toList)) :
    Equivalent (Mirrored S next m.heap.frames.size) run fun g => exec S g s m := by
  -- back from the numbers of copies to those of the code; numbers that the machine knows stay
  let back (i : NodeId) : NodeId := if i < next then i else i - next
  have hback (i : NodeId) : back (i + next) = i :=
    (if_neg (Nat.not_lt.mpr (Nat.le_add_left next i))).trans (Nat.add_sub_cancel i next)
  have hlow (i : NodeId) (hi : i < next) : back i = i := if_pos hi
  have htable (i : NodeId) : m.distances[back i]? = (m.withCopies next m.distances.toList).distances[i]? := by
    by_cases hi : i < next
    · rw [hlow i hi]
      exact (getElem?_insertMany_copy _ hi).symm
    · obtain ⟨j, rfl⟩ := Nat.exists_eq_add_of_le' (Nat.le_of_not_lt hi)
      rw [hback, ← getElem?_insertMany_toList]
      exact (getElem?_insertMany_relabel _ (fun i =>
        (hm.fresh _ (Nat.le_add_left next i)).trans Std.HashMap.getElem?_empty.symm) j).symm
  have hcode : (s.map (· + next) id).map back id = s := by
    rw [Stmt.map_map]
    exact (congrArg₂ (Stmt.map · · s) (funext hback) rfl).trans s.map_id
  have hmachine : (m.withCopies next m.distances.toList).renumber back m.distances = m := by
    change { m with heap := m.heap.renumber back } = m
    rw [hm.renumber_heap hlow]
  have hrun (g : Nat) := (evaluation_renumbers S htable g).2 (s.map (· + next) id) _ rfl
  rw [hcode, hmachine] at hrun
  exact h.renumbered hrun fun hr => hr.renumbered hlow htable

end Machine.Closed

end Lox
