import Mathlib.Data.List.Basic
import Mathlib.Logic.Function.Basic

/-! A replicated log as the users of its leaders see it. The committed entries
form one log. Behind them every node holds entries that some leader accepted.
Such an entry may be committed later, be overwritten, or come back when the
node that holds it is elected. Only the current leader accepts entries. -/

/-- The committed log and the uncommitted tail of every node. -/
structure ReplicatedLog (Node Entry : Type) where
  leader : Node
  term : Nat
  log : List Entry
  tails : Node → List Entry

namespace ReplicatedLog

variable {Node Entry : Type}

/-- A node becomes leader in the next term and goes on from its own tail. -/
def elect (raft : ReplicatedLog Node Entry) (node : Node) : ReplicatedLog Node Entry :=
  { raft with leader := node, term := raft.term + 1 }

def accept [DecidableEq Node] (raft : ReplicatedLog Node Entry) (entry : Entry) :
    ReplicatedLog Node Entry :=
  { raft with
    tails := Function.update raft.tails raft.leader (raft.tails raft.leader ++ [entry]) }

/-- A follower takes over the beginning of the leader's tail. -/
def copyTo [DecidableEq Node] (raft : ReplicatedLog Node Entry) (node : Node) (count : Nat) :
    ReplicatedLog Node Entry :=
  { raft with tails := Function.update raft.tails node ((raft.tails raft.leader).take count) }

/-- What remains of a tail once an entry is committed in its first place. A
tail that disagrees is overwritten before its node can lead again. -/
def afterCommit [DecidableEq Entry] (entry : Entry) : List Entry → List Entry
  | [] => []
  | first :: rest => if first = entry then rest else []

/-- The first entry of the leader's tail becomes committed. -/
def commitNext [DecidableEq Entry] (raft : ReplicatedLog Node Entry) :
    Option (Entry × ReplicatedLog Node Entry) :=
  match raft.tails raft.leader with
  | [] => none
  | entry :: _ => some (entry,
      { raft with
        log := raft.log ++ [entry]
        tails := fun node => afterCommit entry (raft.tails node) })

/-- The log as it will be if the tail of the node is committed as a whole. -/
def history (raft : ReplicatedLog Node Entry) (node : Node) : List Entry :=
  raft.log ++ raft.tails node

def Histories (raft : ReplicatedLog Node Entry) (property : List Entry → Prop) : Prop :=
  ∀ node, property (raft.history node)

section History

variable {raft : ReplicatedLog Node Entry}

@[simp] theorem history_accept_leader [DecidableEq Node] (raft : ReplicatedLog Node Entry)
    (entry : Entry) :
    (raft.accept entry).history raft.leader = raft.history raft.leader ++ [entry] := by
  simp [history, accept]

theorem history_accept_of_ne [DecidableEq Node] (entry : Entry) {node : Node}
    (h : node ≠ raft.leader) :
    (raft.accept entry).history node = raft.history node := by
  simp [history, accept, h]

theorem history_copyTo_of_ne [DecidableEq Node] (count : Nat) {node other : Node}
    (h : node ≠ other) :
    (raft.copyTo other count).history node = raft.history node := by
  simp [history, copyTo, h]

/-- The committed entry was the first of the leader's tail. -/
theorem commitNext_eq_some [DecidableEq Entry] {entry : Entry} {next : ReplicatedLog Node Entry}
    (h : raft.commitNext = some (entry, next)) :
    ∃ rest, raft.tails raft.leader = entry :: rest ∧
      next = { raft with
        log := raft.log ++ [entry]
        tails := fun node => afterCommit entry (raft.tails node) } := by
  unfold commitNext at h
  split at h
  case h_1 => cases h
  case h_2 first rest hTail =>
      cases h
      exact ⟨rest, hTail, rfl⟩

/-- Committing does not change the history of the leader. -/
theorem history_commitNext_leader [DecidableEq Entry] {entry : Entry}
    {next : ReplicatedLog Node Entry}
    (h : raft.commitNext = some (entry, next)) :
    next.leader = raft.leader ∧ next.history next.leader = raft.history raft.leader := by
  obtain ⟨rest, hTail, rfl⟩ := commitNext_eq_some h
  simp [history, hTail, afterCommit]

/-- After a commit every history is an old one or ends with the new entry. -/
theorem history_commitNext [DecidableEq Entry] {entry : Entry} {next : ReplicatedLog Node Entry}
    (h : raft.commitNext = some (entry, next)) (node : Node) :
    next.history node = raft.history node ∨ next.history node = raft.log ++ [entry] := by
  obtain ⟨rest, hTail, rfl⟩ := commitNext_eq_some h
  cases hNode : raft.tails node with
  | nil => exact Or.inr (by simp [history, hNode, afterCommit])
  | cons first later =>
      by_cases hSame : first = entry
      · exact Or.inl (by simp [history, hNode, afterCommit, hSame])
      · exact Or.inr (by simp [history, hNode, afterCommit, hSame])

end History

section Rules

variable {raft : ReplicatedLog Node Entry} {property : List Entry → Prop}

theorem Histories.accept [DecidableEq Node] {entry : Entry} (h : raft.Histories property)
    (hNew : property (raft.history raft.leader ++ [entry])) :
    (raft.accept entry).Histories property := by
  intro node
  by_cases hNode : node = raft.leader
  · subst hNode
    rwa [history_accept_leader]
  · rw [history_accept_of_ne entry hNode]
    exact h node

variable (hPrefix : ∀ first second, property (first ++ second) → property first)

include hPrefix in
theorem Histories.copyTo [DecidableEq Node] (h : raft.Histories property) (other : Node)
    (count : Nat) :
    (raft.copyTo other count).Histories property := by
  intro node
  by_cases hNode : node = other
  · subst hNode
    apply hPrefix _ ((raft.tails raft.leader).drop count)
    have hLeader := h raft.leader
    simpa [history, ReplicatedLog.copyTo] using hLeader
  · rw [history_copyTo_of_ne count hNode]
    exact h node

include hPrefix in
theorem Histories.log (h : raft.Histories property) : property raft.log :=
  hPrefix _ _ (h raft.leader)

include hPrefix in
theorem Histories.commitNext [DecidableEq Entry] {entry : Entry} {next : ReplicatedLog Node Entry}
    (h : raft.Histories property) (hNext : raft.commitNext = some (entry, next)) :
    next.Histories property := by
  intro node
  rcases history_commitNext hNext node with hOld | hNew
  · rw [hOld]
    exact h node
  · obtain ⟨rest, hTail, _⟩ := commitNext_eq_some hNext
    rw [hNew]
    apply hPrefix _ rest
    have hLeader := h raft.leader
    simpa [history, hTail] using hLeader

end Rules

end ReplicatedLog
