import Radixox.Lib.Topics

/-!
# A message bus

Parties join and leave topics. A message on a topic goes to the mail of each of its members, once
for each time the topic lists the party; a direct message goes to one party. `Named` says that
two maps list the same parties under two kinds of names, one of which a
party need not have.
-/

namespace Radixox.Topics
set_option autoImplicit false

/-- The members of each topic, and all that each party has been sent. -/
structure Bus (κ ι μ : Type) where
  topics : TopicMap κ ι
  mail : ι → List μ

inductive Post (κ ι μ : Type) where
  | join (i : ι) (topic : κ)
  | leave (i : ι) (topics : List κ)
  | leaveAll (i : ι)
  | publish (topic : κ) (message : μ)
  | send (i : ι) (message : μ)

variable {κ ι ι' μ : Type} [DecidableEq κ]

section
variable [DecidableEq ι]

def withdraws (m : TopicMap κ ι) (topics : List κ) (i : ι) : TopicMap κ ι := topics.foldl (fun m topic => withdraw m topic i) m

/-- The members after a post. -/
def Post.seats (m : TopicMap κ ι) : Post κ ι μ → TopicMap κ ι
  | .join i topic => enrol m topic i
  | .leave i topics => withdraws m topics i
  | .leaveAll i => withdraws m (topicsOf m i) i
  | .publish _ _ | .send _ _ => m

/-- What a post adds to the mail of a party. -/
def Post.adds (m : TopicMap κ ι) (i : ι) : Post κ ι μ → List μ
  | .publish topic message => List.replicate ((members m topic).count i) message
  | .send j message => if i = j then [message] else []
  | .join _ _ | .leave _ _ | .leaveAll _ => []

namespace Bus

def empty : Bus κ ι μ := ⟨∅, fun _ => []⟩

def next (b : Bus κ ι μ) (post : Post κ ι μ) : Bus κ ι μ := ⟨post.seats b.topics, fun i => b.mail i ++ post.adds b.topics i⟩

end Bus

end

/-! ## Two kinds of names -/

/-- The parties that `m'` lists are those that `m` lists by the names that they have. -/
def Named (name : ι' → Option ι) (m : TopicMap κ ι) (m' : TopicMap κ ι') : Prop :=
  ∀ topic, (members m topic).map some = (members m' topic).map name

/-- A name is that of one party. -/
def Apart (name : ι' → Option ι) : Prop := ∀ c c' i, name c = some i → name c' = some i → c = c'

theorem Apart.iff {name : ι' → Option ι} {i : ι} {c d : ι'} (apart : Apart name) (mine : name c = some i) :
    name d = some i ↔ d = c :=
  ⟨fun his => apart d c i his mine, fun same => same ▸ mine⟩

variable {name name' : ι' → Option ι} {m m₁ : TopicMap κ ι} {m' : TopicMap κ ι'} {i : ι} {c : ι'}

theorem named_empty : Named name (∅ : TopicMap κ ι) (∅ : TopicMap κ ι') := fun _ => rfl

theorem Named.of_members (named : Named name m m') (same : ∀ topic, members m₁ topic = members m topic) :
    Named name m₁ m' := by
  intro topic
  rw [same]
  exact named topic

theorem Named.length_eq (named : Named name m m') (topic : κ) : (members m topic).length = (members m' topic).length := by
  have lengths := congrArg List.length (named topic)
  rwa [List.length_map, List.length_map] at lengths

/-- A member has a name. -/
theorem Named.name_of_mem (named : Named name m m') {topic : κ} (listed : c ∈ members m' topic) :
    ∃ i, name c = some i ∧ i ∈ members m topic := by
  have member : name c ∈ (members m' topic).map name := List.mem_map_of_mem listed
  rw [← named topic] at member
  obtain ⟨i, inside, same⟩ := List.mem_map.1 member
  exact ⟨i, same.symm, inside⟩

theorem Named.notMem (named : Named name m m') (nameless : name c = none) (topic : κ) : c ∉ members m' topic := by
  intro listed
  obtain ⟨i, mine, -⟩ := named.name_of_mem listed
  rw [nameless] at mine
  cases mine

/-- Only parties that are listed nowhere get, change or lose their name. -/
theorem Named.rename (named : Named name m m') (same : ∀ topic, ∀ c ∈ members m' topic, name' c = name c) :
    Named name' m m' := by
  intro topic
  rw [named topic]
  exact List.map_congr_left fun c listed => (same topic c listed).symm

theorem Named.enrol (named : Named name m m') (mine : name c = some i) (topic : κ) :
    Named name (enrol m topic i) (Topics.enrol m' topic c) := by
  intro t
  rw [members_enrol, members_enrol]
  split
  · rw [List.map_append, List.map_append, named t, List.map_singleton, List.map_singleton, mine]
  · exact named t

section
variable [DecidableEq ι] [DecidableEq ι']

/-- The parties and their names are listed alike. -/
theorem Named.count_eq (named : Named name m m') (apart : Apart name) (mine : name c = some i) (topic : κ) :
    (members m topic).count i = (members m' topic).count c := by
  have counts := congrArg (List.count (some i)) (named topic)
  simp only [List.count, List.countP_map] at counts ⊢
  have left : ((fun x => x == some i) ∘ some : ι → Bool) = fun k => k == i := by
    funext k
    simp
  have right : ((fun x => x == some i) ∘ name) = fun d => d == c := by
    funext d
    simp [apart.iff mine]
  rwa [left, right] at counts

theorem Named.mem_iff (named : Named name m m') (apart : Apart name) (mine : name c = some i) (topic : κ) :
    i ∈ members m topic ↔ c ∈ members m' topic := by
  rw [← List.count_pos_iff, ← List.count_pos_iff, named.count_eq apart mine]

theorem filter_named (apart : Apart name) (mine : name c = some i) {l : List ι} {l' : List ι'}
    (same : l.map some = l'.map name) : (l.filter (· ≠ i)).map some = (l'.filter (· ≠ c)).map name := by
  have left : (l.filter (· ≠ i)).map some = (l.map some).filter (· ≠ some i) := by
    rw [List.filter_map]
    congr 2
    funext k
    simp
  have right : (l'.filter (· ≠ c)).map name = (l'.map name).filter (· ≠ some i) := by
    rw [List.filter_map]
    congr 2
    funext d
    simp [apart.iff mine]
  rw [left, right, same]

/-- The party leaves the topics under both names. -/
theorem Named.withdraws (named : Named name m m') (apart : Apart name) (mine : name c = some i) {l l' : List κ}
    (alike : ∀ topic, i ∈ members m topic → (topic ∈ l ↔ topic ∈ l')) :
    Named name (withdraws m l i) (Topics.withdraws m' l' c) := by
  intro topic
  rw [Topics.withdraws, members_withdraws, Topics.withdraws, members_withdraws]
  by_cases listed : i ∈ members m topic
  · by_cases left : topic ∈ l
    · rw [if_pos left, if_pos ((alike topic listed).1 left)]
      exact filter_named apart mine (named topic)
    · rw [if_neg left, if_neg fun left' => left ((alike topic listed).2 left')]
      exact named topic
  · have whole : ∀ {ι : Type} [DecidableEq ι] {l : List ι} {k : ι}, k ∉ l → l.filter (· ≠ k) = l := by
      intro ι _ l k absent
      apply List.filter_eq_self.2
      exact fun k' member => by simpa using fun same : k' = k => absent (same ▸ member)
    have absent' : c ∉ members m' topic := fun there => listed ((named.mem_iff apart mine topic).2 there)
    rw [whole listed, whole absent', ite_self, ite_self]
    exact named topic

end

/-- Nobody is in a topic after leaving them all. -/
theorem notMem_leaveAll [DecidableEq ι] (m : TopicMap κ ι) (i : ι) (topic : κ) :
    i ∉ members (withdraws m (topicsOf m i) i) topic := by
  intro listed
  rw [withdraws, members_withdraws] at listed
  split at listed
  next => simp at listed
  next left => exact left (mem_topicsOf.2 listed)

/-- A party that is listed nowhere leaves nothing. -/
theorem members_withdraws_of_notMem [DecidableEq ι] (absent : ∀ topic, i ∉ members m topic) (l : List κ) (topic : κ) :
    members (withdraws m l i) topic = members m topic := by
  rw [withdraws, members_withdraws]
  split
  · apply List.filter_eq_self.2
    exact fun k member => by simpa using fun same : k = i => absent topic (same ▸ member)
  · rfl

end Radixox.Topics
