import Mathlib.Data.Set.Insert
import Mathlib.Logic.Function.Basic

/-!
# Keys on lease

Parties hold keys of a table, each at most one, and lists beside the table name keys too. A party
that takes a key takes one that is not in the table; one that drops its key leaves it
in neither place. So whatever the table or a list has is held by a party. A party
that only forgets its key breaks that, but no other party's hold on its own.
-/

namespace Radixox.Leases
set_option autoImplicit false

variable {ι κ : Type} [DecidableEq ι]

structure Ledger (ι κ : Type) where
  holder : ι → Option κ
  /-- The keys in the table. -/
  present : Set κ
  /-- The keys in the lists. -/
  listed : Set κ

/-- A key that is held is in the table, and held once. -/
structure Sound (l : Ledger ι κ) : Prop where
  held : ∀ i k, l.holder i = some k → k ∈ l.present
  apart : ∀ i j k, l.holder i = some k → l.holder j = some k → i = j

/-- A key in the table or in a list is held. -/
def Traceless (l : Ledger ι κ) : Prop := ∀ k, k ∈ l.present ∨ k ∈ l.listed → ∃ i, l.holder i = some k

inductive Move (l l' : Ledger ι κ) : Prop
  /-- Only the lists change, and a new entry of a list is a key that is held. -/
  | keep (holders : l'.holder = l.holder) (table : l'.present = l.present)
      (lists : ∀ k ∈ l'.listed, k ∈ l.listed ∨ ∃ i, l.holder i = some k)
  | take (i : ι) (k : κ) (without : l.holder i = none) (absent : k ∉ l.present)
      (holders : l'.holder = Function.update l.holder i (some k)) (table : l'.present = insert k l.present)
      (lists : ∀ k' ∈ l'.listed, k' ∈ l.listed ∨ k' = k)
  | drop (i : ι) (k : κ) (mine : l.holder i = some k) (holders : l'.holder = Function.update l.holder i none)
      (table : l'.present = l.present \ {k}) (lists : ∀ k' ∈ l'.listed, k' ∈ l.listed ∧ k' ≠ k)

/-- A party is without its key, which may still be about. -/
def Forgets (i : ι) (l l' : Ledger ι κ) : Prop :=
  l'.holder = Function.update l.holder i none ∧ ∀ k ∈ l.present, l.holder i ≠ some k → k ∈ l'.present

variable {l l' : Ledger ι κ}

theorem Sound.forgets {i : ι} (sound : Sound l) (forgets : Forgets i l l') : Sound l' := by
  obtain ⟨holders, kept⟩ := forgets
  have other : ∀ j k, l'.holder j = some k → j ≠ i ∧ l.holder j = some k := by
    intro j k hold
    by_cases same : j = i
    · rw [holders, same, Function.update_self] at hold
      cases hold
    · rw [holders, Function.update_of_ne same] at hold
      exact ⟨same, hold⟩
  constructor
  · intro j k hold
    obtain ⟨differ, before⟩ := other j k hold
    exact kept k (sound.held j k before) fun mine => differ (sound.apart j i k before mine)
  · intro j j' k first second
    exact sound.apart j j' k (other j k first).2 (other j' k second).2

theorem Sound.move (sound : Sound l) (move : Move l l') : Sound l' := by
  cases move with
  | keep holders table _ =>
    constructor
    · intro i k hold
      rw [table]
      exact sound.held i k (holders ▸ hold)
    · intro i j k first second
      rw [holders] at first second
      exact sound.apart i j k first second
  | take i k _ absent holders table _ =>
    have other : ∀ j k', j ≠ i → l'.holder j = some k' → l.holder j = some k' := by
      intro j k' differ hold
      rwa [holders, Function.update_of_ne differ] at hold
    have mine : ∀ k', l'.holder i = some k' → k = k' := by
      intro k' hold
      rw [holders, Function.update_self] at hold
      exact Option.some.inj hold
    have fresh : ∀ j, j ≠ i → l'.holder j ≠ some k := fun j differ hold => absent (sound.held j k (other j k differ hold))
    constructor
    · intro j k' hold
      rw [table, Set.mem_insert_iff]
      by_cases same : j = i
      · exact .inl (mine k' (same ▸ hold)).symm
      · exact .inr (sound.held j k' (other j k' same hold))
    · intro j j' k' first second
      by_cases same : j = i
      · by_cases same' : j' = i
        · rw [same, same']
        · exact absurd (mine k' (same ▸ first) ▸ second) (fresh j' same')
      · by_cases same' : j' = i
        · exact absurd (mine k' (same' ▸ second) ▸ first) (fresh j same)
        · exact sound.apart j j' k' (other j k' same first) (other j' k' same' second)
  | drop i k mine holders table _ =>
    apply sound.forgets (i := i)
    refine ⟨holders, fun k' present differ => ?_⟩
    rw [table]
    exact ⟨present, fun same => differ (Set.mem_singleton_iff.1 same ▸ mine)⟩

theorem Traceless.move (traceless : Traceless l) (move : Move l l') : Traceless l' := by
  intro k known
  cases move with
  | keep holders table lists =>
    rw [table] at known
    rw [holders]
    rcases known with present | listed
    · exact traceless k (.inl present)
    · exact (lists k listed).elim (fun before => traceless k (.inr before)) id
  | take i k' without _ holders table lists =>
    have before : k = k' ∨ k ∈ l.present ∨ k ∈ l.listed := by
      rcases known with present | listed
      · rw [table] at present
        exact (Set.mem_insert_iff.1 present).imp_right .inl
      · exact (lists k listed).symm.imp_right .inr
    rcases before with same | old
    · exact ⟨i, by rw [holders, Function.update_self, same]⟩
    · obtain ⟨j, hold⟩ := traceless k old
      have differ : j ≠ i := by
        intro same
        rw [same, without] at hold
        cases hold
      exact ⟨j, by rw [holders, Function.update_of_ne differ, hold]⟩
  | drop i k' mine holders table lists =>
    have before : (k ∈ l.present ∨ k ∈ l.listed) ∧ k ≠ k' := by
      rcases known with present | listed
      · rw [table] at present
        exact ⟨.inl present.1, present.2⟩
      · exact ⟨.inr (lists k listed).1, (lists k listed).2⟩
    obtain ⟨j, hold⟩ := traceless k before.1
    have differ : j ≠ i := by
      intro same
      rw [same, mine] at hold
      exact before.2 (Option.some.inj hold).symm
    exact ⟨j, by rw [holders, Function.update_of_ne differ, hold]⟩

end Radixox.Leases
