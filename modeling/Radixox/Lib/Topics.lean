import Mathlib.Data.List.AList
import Mathlib.Tactic.Common

/-!
# Topics and their members

A map from topics to the lists of their members. `WellKept` says that a member is listed
once under a topic and that no list is empty. Enrolling a new member and
withdrawing one keep this, and change who is listed at one place only.
-/

namespace Radixox.Topics
set_option autoImplicit false

variable {κ ι : Type} [DecidableEq κ] [DecidableEq ι]

/-- From each topic to its members. -/
abbrev TopicMap (κ ι : Type) := AList fun _ : κ => List ι

def members (m : TopicMap κ ι) (topic : κ) : List ι := (m.lookup topic).getD []

def enrol (m : TopicMap κ ι) (topic : κ) (i : ι) : TopicMap κ ι := m.insert topic (members m topic ++ [i])

/-- An emptied list goes. -/
def withdraw (m : TopicMap κ ι) (topic : κ) (i : ι) : TopicMap κ ι :=
  let l := (members m topic).filter (· ≠ i)
  if l.isEmpty then m.erase topic else m.insert topic l

/-- The topics that list `i`. -/
def topicsOf (m : TopicMap κ ι) (i : ι) : List κ := m.keys.filter fun topic => (members m topic).contains i

structure WellKept (m : TopicMap κ ι) : Prop where
  once : ∀ topic, (members m topic).Nodup
  filled : ∀ topic l, m.lookup topic = some l → l ≠ []

variable {m m' : TopicMap κ ι} {topic : κ} {i : ι}

omit [DecidableEq ι] in
theorem members_insert (l : List ι) (t : κ) : members (m.insert topic l) t = if t = topic then l else members m t := by
  unfold members
  by_cases same : t = topic
  · rw [if_pos same, same, AList.lookup_insert]
    rfl
  · rw [if_neg same, AList.lookup_insert_ne same]

omit [DecidableEq ι] in
theorem members_erase (t : κ) : members (m.erase topic) t = if t = topic then [] else members m t := by
  unfold members
  by_cases same : t = topic
  · rw [if_pos same, same, AList.lookup_erase]
    rfl
  · rw [if_neg same, AList.lookup_erase_ne same]

omit [DecidableEq ι] in
theorem members_enrol (t : κ) : members (enrol m topic i) t = if t = topic then members m t ++ [i] else members m t := by
  rw [enrol, members_insert]
  split
  next same => rw [same]
  next => rfl

theorem members_withdraw (t : κ) :
    members (withdraw m topic i) t = if t = topic then (members m t).filter (· ≠ i) else members m t := by
  unfold withdraw
  dsimp only
  split
  next empty =>
    rw [members_erase]
    split
    next same => rw [same, List.isEmpty_iff.1 empty]
    next => rfl
  next =>
    rw [members_insert]
    split
    next same => rw [same]
    next => rfl

omit [DecidableEq ι] in
/-- A topic that is not there can be erased. -/
theorem erase_of_lookup_none (absent : m.lookup topic = none) : m.erase topic = m :=
  AList.ext (List.kerase_of_notMem_keys (AList.lookup_eq_none.1 absent))

/-- A member withdraws from each of the listed topics. -/
theorem members_withdraws (i : ι) (l : List κ) : ∀ (m : TopicMap κ ι) (t : κ),
    members (l.foldl (fun m topic => withdraw m topic i) m) t =
      if t ∈ l then (members m t).filter (· ≠ i) else members m t := by
  induction l with
  | nil =>
    intro m t
    rw [if_neg List.not_mem_nil]
    rfl
  | cons topic rest ih =>
    intro m t
    rw [List.foldl_cons, ih, members_withdraw]
    by_cases here : t = topic
    · subst here
      have twice : ((members m t).filter (· ≠ i)).filter (· ≠ i) = (members m t).filter (· ≠ i) := by
        simp [List.filter_filter]
      simp only [if_true, List.mem_cons, true_or, twice, ite_self]
    · have same : t ∈ topic :: rest ↔ t ∈ rest := by
        rw [List.mem_cons, or_iff_right here]
      simp only [if_neg here, same]

theorem mem_topicsOf {t : κ} : t ∈ topicsOf m i ↔ i ∈ members m t := by
  rw [topicsOf, List.mem_filter, List.contains_iff_mem, and_iff_right_iff_imp]
  intro listed
  rw [members] at listed
  cases found : m.lookup t with
  | none => rw [found] at listed; cases listed
  | some l => exact AList.mem_keys.1 (AList.lookup_isSome.1 (by rw [found]; rfl))

theorem nodup_topicsOf : (topicsOf m i).Nodup := m.keys_nodup.filter _

/-- Maps that list `i` under the same topics. -/
theorem length_topicsOf_congr (same : ∀ t, i ∈ members m' t ↔ i ∈ members m t) :
    (topicsOf m' i).length = (topicsOf m i).length := by
  apply List.Perm.length_eq
  apply (List.perm_ext_iff_of_nodup nodup_topicsOf nodup_topicsOf).2
  intro t
  rw [mem_topicsOf, mem_topicsOf, same]

/-- One more topic that lists `i`. -/
theorem length_topicsOf_succ (topic : κ) (new : i ∉ members m topic)
    (more : ∀ t, i ∈ members m' t ↔ i ∈ members m t ∨ t = topic) : (topicsOf m' i).length = (topicsOf m i).length + 1 := by
  rw [← List.length_cons (a := topic)]
  apply List.Perm.length_eq
  apply (List.perm_ext_iff_of_nodup nodup_topicsOf (List.nodup_cons.2 ⟨fun old => new (mem_topicsOf.1 old), nodup_topicsOf⟩)).2
  intro t
  rw [mem_topicsOf, more, List.mem_cons, mem_topicsOf, or_comm]

theorem length_topicsOf_enrol (new : i ∉ members m topic) (j : ι) :
    (topicsOf (enrol m topic i) j).length = if j = i then (topicsOf m j).length + 1 else (topicsOf m j).length := by
  split
  next same =>
    subst same
    apply length_topicsOf_succ topic new
    intro t
    rw [members_enrol]
    by_cases here : t = topic <;> simp [here]
  next other =>
    apply length_topicsOf_congr
    intro t
    rw [members_enrol]
    by_cases here : t = topic <;> simp [here, other]

theorem length_topicsOf_withdraw (listed : i ∈ members m topic) (j : ι) :
    (topicsOf m j).length = if j = i then (topicsOf (withdraw m topic i) j).length + 1
      else (topicsOf (withdraw m topic i) j).length := by
  split
  next same =>
    subst same
    apply length_topicsOf_succ topic
    · rw [members_withdraw, if_pos rfl]
      simp
    · intro t
      rw [members_withdraw]
      by_cases here : t = topic
      · simp [here, listed]
      · simp [here]
  next other =>
    apply length_topicsOf_congr
    intro t
    rw [members_withdraw]
    by_cases here : t = topic <;> simp [here, other]

theorem topicsOf_eq_nil (none' : (topicsOf m i).length = 0) (t : κ) : i ∉ members m t := by
  intro listed
  have member := mem_topicsOf.2 listed
  rw [List.length_eq_zero_iff.1 none'] at member
  cases member

omit [DecidableEq ι] in
theorem WellKept.enrol (kept : WellKept m) (new : i ∉ members m topic) : WellKept (enrol m topic i) := by
  constructor
  · intro t
    rw [members_enrol]
    split
    next same =>
      rw [List.nodup_append]
      refine ⟨kept.once t, List.nodup_singleton i, ?_⟩
      intro a inside b last equal
      rw [List.mem_singleton.1 last] at equal
      exact new (same ▸ equal ▸ inside)
    next => exact kept.once t
  · intro t l found
    rw [Topics.enrol] at found
    by_cases same : t = topic
    · rw [same, AList.lookup_insert, Option.some.injEq] at found
      rw [← found]
      simp
    · rw [AList.lookup_insert_ne same] at found
      exact kept.filled t l found

theorem WellKept.withdraw (kept : WellKept m) (topic : κ) (i : ι) : WellKept (withdraw m topic i) := by
  constructor
  · intro t
    rw [members_withdraw]
    split
    · exact (kept.once t).filter _
    · exact kept.once t
  · intro t l found
    unfold Topics.withdraw at found
    dsimp only at found
    split at found
    next =>
      by_cases same : t = topic
      · rw [same, AList.lookup_erase] at found
        cases found
      · rw [AList.lookup_erase_ne same] at found
        exact kept.filled t l found
    next some' =>
      by_cases same : t = topic
      · rw [same, AList.lookup_insert, Option.some.injEq] at found
        rw [← found]
        simpa [List.isEmpty_iff] using some'
      · rw [AList.lookup_insert_ne same] at found
        exact kept.filled t l found

theorem WellKept.withdraws (i : ι) (l : List κ) : ∀ {m : TopicMap κ ι}, WellKept m →
    WellKept (l.foldl (fun m topic => Topics.withdraw m topic i) m) := by
  induction l with
  | nil => exact fun kept => kept
  | cons topic rest ih => exact fun kept => ih (kept.withdraw topic i)

end Radixox.Topics
