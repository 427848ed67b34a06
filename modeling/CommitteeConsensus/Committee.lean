import CommitteeConsensus.Fault

/-!
# Committees, quorums and leaders

A committee of `n` members tolerates `f = (n - 1) / 3` faulty ones and decides with
a quorum of `n - f`.  The two facts that carry the protocol are both about these
numbers alone: two quorums share more than `f` members, hence a correct one, and a
quorum survives the silence of all faulty members.

The order of a committee matters: it fixes the leader of every view, by counting
the views round the list.  Nothing here asks for distinct ids; a statement that
needs them says so.  What a committee may never be is empty, since the leader of a
view is then nobody, so that much is in the type.
-/

namespace CommitteeConsensus

/-- How many faulty members a committee of `n` tolerates. -/
def maxFaulty (n : Nat) : Nat := (n - 1) / 3

/-- How many matching votes decide a step in a committee of `n` members. -/
def quorumSize (n : Nat) : Nat := n - maxFaulty n

/-- The quorum of a committee of `n` members; a committee of none has no quorum. -/
def quorumOf (n : Nat) : Except Fault Nat :=
  if n = 0 then .error .emptyCommittee else .ok (quorumSize n)

/-- The members of a height in the order that fixes its leaders: at least one. -/
structure Committee where
  members : List MemberId
  nonempty : members ≠ []
  deriving DecidableEq

namespace Committee

/-- The committee of these members, unless there are none. -/
def ofList? (members : List MemberId) : Option Committee :=
  if h : members = [] then none else some ⟨members, h⟩

/-- How many places a committee has. -/
def size (c : Committee) : Nat := c.members.length

theorem size_pos (c : Committee) : 0 < c.size := List.length_pos_iff.2 c.nonempty

/-- How many matching votes decide a step. -/
def quorum (c : Committee) : Nat := quorumSize c.size

/-- The leader of a view: the views go round the members in order. -/
def leader (c : Committee) (view : View) : MemberId :=
  c.members.get ⟨view % c.size, Nat.mod_lt _ c.size_pos⟩

/-- Whether a member is in the committee. -/
def contains (c : Committee) (member : MemberId) : Bool := c.members.contains member

/-- Every member but this one, in order. -/
def others (c : Committee) (member : MemberId) : List MemberId :=
  c.members.filter (· != member)

@[simp] theorem contains_eq_true {c : Committee} {member : MemberId} :
    c.contains member = true ↔ member ∈ c.members := by
  simp [contains]

theorem leader_mem (c : Committee) (view : View) : c.leader view ∈ c.members :=
  List.getElem_mem _

@[simp] theorem mem_others {c : Committee} {member m : MemberId} :
    m ∈ c.others member ↔ m ∈ c.members ∧ m ≠ member := by
  simp [others]

end Committee

/-- The leader of a view among ordered members; no members have no leader. -/
def leaderOf (members : List MemberId) (view : View) : Except Fault MemberId :=
  match Committee.ofList? members with
  | some committee => .ok (committee.leader view)
  | none => .error .emptyCommittee

@[simp] theorem quorumOf_size (c : Committee) : quorumOf c.size = .ok c.quorum :=
  if_neg (Nat.ne_of_gt c.size_pos)

@[simp] theorem leaderOf_members (c : Committee) (view : View) :
    leaderOf c.members view = .ok (c.leader view) := by
  simp [leaderOf, Committee.ofList?, c.nonempty]

/-! ## The arithmetic of quorums -/

theorem quorumSize_le (n : Nat) : quorumSize n ≤ n := Nat.sub_le _ _

theorem quorumSize_pos {n : Nat} (h : 0 < n) : 0 < quorumSize n := by
  unfold quorumSize maxFaulty; omega

theorem Committee.quorum_pos (c : Committee) : 0 < c.quorum := quorumSize_pos c.size_pos

/-- A quorum outnumbers twice the faulty members. -/
theorem two_mul_maxFaulty_lt_quorumSize {n : Nat} (h : 0 < n) :
    2 * maxFaulty n < quorumSize n := by
  unfold quorumSize maxFaulty; omega

/-- Two quorums together outnumber the committee by more than the faulty members. -/
theorem add_maxFaulty_lt_two_quorums {n : Nat} (h : 0 < n) :
    n + maxFaulty n < quorumSize n + quorumSize n := by
  unfold quorumSize maxFaulty; omega

end CommitteeConsensus
