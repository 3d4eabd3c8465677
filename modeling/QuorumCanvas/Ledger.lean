import Mathlib.Data.List.Infix
import QuorumCanvas.Quorum

/-!
# Ledgers: one log, written by one elected leader per term

A *ledger* is the history of a replicated log whose entries carry the term in
which they were created.  In each term at most one leader is elected; it starts
from the log it was elected with (its *base*) and only appends entries of its
own term.  Replicas acknowledge prefixes of a leader's log, and a prefix is
*committed* once a majority has acknowledged it in the leader's own term.

The one idea is to follow, for every acknowledgement, not whether the replica
still holds the acknowledged prefix but where it could have lost it: either the
prefix is still there, or some later leader was elected without it
(`Ledger.Lost`).  That statement mentions no commitment and no majority, so
every step of a protocol preserves it outright (`Standing.adopt`), and
`leader_completeness` then follows by one strong induction on terms.

Nothing here names a program: replicas are an arbitrary type, entries any type
with a term.
-/

namespace Ledger

open Quorum (Majority)

/-- Entries carry the term in which their leader created them. -/
class Termed (α : Type*) where
  term : α → ℕ

/-- The history of elections, leader logs and acknowledgements. -/
structure History (ι α : Type*) where
  /-- the leader elected in a term, if any -/
  leader : ℕ → Option ι
  /-- the replicas whose votes elected it -/
  voters : ℕ → Finset ι
  /-- the log it was elected with -/
  base : ℕ → List α
  /-- the longest log it has held in that term -/
  log : ℕ → List α
  /-- `acked v t n`: in term `t`, replica `v` held the first `n` entries of `log t` -/
  acked : ι → ℕ → ℕ → Prop

variable {ι α : Type*} [Termed α]

open Termed (term)

namespace History

variable (L : History ι α)

/-- Some leader was elected in term `t`. -/
def Elected (t : ℕ) : Prop := (L.leader t).isSome

/-- Every entry of `ℓ` sits where the leader of its term put it. -/
def Chained (ℓ : List α) : Prop :=
  ∀ k e, ℓ[k]? = some e → L.Elected (term e) ∧ ℓ.take (k + 1) <+: L.log (term e)

/-- The first `n` entries of `log t` end with an entry of term `t` itself. -/
def Own (t n : ℕ) : Prop :=
  ∃ k e, n = k + 1 ∧ (L.log t)[k]? = some e ∧ term e = t

/-- Some leader elected after `t`, and by term `b`, started without the first
`n` entries of `log t`. -/
def Lost (t n b : ℕ) : Prop :=
  ∃ u, t < u ∧ u ≤ b ∧ L.Elected u ∧ ¬ (L.log t).take n <+: L.base u

/-- What replica `v` owes by term `b`: each prefix it acknowledged is in `ℓ`,
unless a later leader lost it first. -/
def Backed (v : ι) (ℓ : List α) (b : ℕ) : Prop :=
  ∀ t n, t ≤ b → L.acked v t n → L.Own t n →
    (L.log t).take n <+: ℓ ∨ L.Lost t n b

/-- What replica `v` acknowledged before term `t` is in `ℓ`, unless a leader lost
it first. -/
def Owed (v : ι) (ℓ : List α) (t : ℕ) : Prop :=
  ∀ s n, s < t → L.acked v s n → L.Own s n → (L.log s).take n <+: ℓ ∨ L.Lost s n t

/-- What `ℓ` holds of the leaders' logs by term `b`, `ℓ'` holds as well, unless a
later leader lost it first. -/
def Inherits (ℓ ℓ' : List α) (b : ℕ) : Prop :=
  ∀ s n, s ≤ b → L.Own s n → (L.log s).take n <+: ℓ → (L.log s).take n <+: ℓ' ∨ L.Lost s n b

/-- A majority acknowledged the first `n` entries of `log t`, the last of them
created in term `t`. -/
def Committed (members : Finset ι) (t n : ℕ) : Prop :=
  L.Own t n ∧ ∃ Q, Majority members Q ∧ ∀ v ∈ Q, L.acked v t n

/-- `ℓ` is part of a prefix committed by term `b`. -/
def Settled (members : Finset ι) (ℓ : List α) (b : ℕ) : Prop :=
  ℓ = [] ∨ ∃ t n, L.Committed members t n ∧ t ≤ b ∧ ℓ <+: (L.log t).take n

/-- The rules by which a ledger is kept. -/
structure Sound (members : Finset ι) : Prop where
  base_prefix : ∀ t, L.base t <+: L.log t
  base_term : ∀ t, ∀ e ∈ L.base t, term e < t
  own_term : ∀ t k e, (L.base t).length ≤ k → (L.log t)[k]? = some e → term e = t
  vacant : ∀ t, ¬ L.Elected t → L.log t = []
  chained : ∀ t, L.Chained (L.log t)
  acked_le : ∀ v t n, L.acked v t n → L.Elected t ∧ n ≤ (L.log t).length
  voters_majority : ∀ t, L.Elected t → Majority members (L.voters t)
  voters_backed : ∀ t, L.Elected t → ∀ v ∈ L.voters t, ∀ s n, s < t →
    L.acked v s n → L.Own s n → (L.log s).take n <+: L.base t ∨ L.Lost s n (t - 1)

end History

variable {L : History ι α} {members : Finset ι}

/-- A prefix of a chained log is chained. -/
theorem History.Chained.shorten {ℓ ℓ' : List α} (h : L.Chained ℓ) (hp : ℓ' <+: ℓ) :
    L.Chained ℓ' := by
  intro k e hk
  have hlt : k < ℓ'.length := (List.getElem?_eq_some_iff.mp hk).1
  obtain ⟨hel, htake⟩ := h k e ((List.prefix_iff_getElem?.mp hp k hlt).trans
    ((List.getElem?_eq_getElem hlt).symm.trans hk))
  refine ⟨hel, ?_⟩
  rw [List.prefix_iff_eq_take.mp hp, List.take_take, min_eq_left (by omega)]
  exact htake

/-- **Log matching.**  Two chained logs with entries of one term at one index
agree on everything up to that index. -/
theorem History.Chained.matching {ℓ ℓ' : List α} (h : L.Chained ℓ) (h' : L.Chained ℓ')
    {k : ℕ} {e e' : α} (hk : ℓ[k]? = some e) (hk' : ℓ'[k]? = some e')
    (hterm : term e = term e') : ℓ.take (k + 1) = ℓ'.take (k + 1) := by
  have h1 := (h k e hk).2
  have h2 := (h' k e' hk').2
  rw [← hterm] at h2
  have hlt : k < ℓ.length := (List.getElem?_eq_some_iff.mp hk).1
  have hlt' : k < ℓ'.length := (List.getElem?_eq_some_iff.mp hk').1
  have hlen : (ℓ.take (k + 1)).length = (ℓ'.take (k + 1)).length := by
    simp only [List.length_take]
    omega
  exact (List.prefix_of_prefix_length_le h1 h2 hlen.le).eq_of_length hlen

/-- An acknowledged prefix of a term's log has the length it names. -/
theorem History.Own.length_take {t n : ℕ} (h : L.Own t n) :
    ((L.log t).take n).length = n ∧ 0 < n := by
  obtain ⟨k, e, rfl, hk, _⟩ := h
  have hlt : k < (L.log t).length := (List.getElem?_eq_some_iff.mp hk).1
  rw [List.length_take]
  omega

/-- Only an elected leader has entries of its own. -/
theorem History.Own.elected (h : L.Sound members) {t n : ℕ} (hown : L.Own t n) : L.Elected t := by
  obtain ⟨k, e, -, hk, -⟩ := hown
  by_contra hno
  rw [h.vacant t hno] at hk
  cases hk

namespace History.Inherits

variable {ℓ ℓ' ℓ'' : List α} {b : ℕ}

theorem refl (ℓ : List α) (b : ℕ) : L.Inherits ℓ ℓ b := fun _ _ _ _ h => Or.inl h

theorem trans (h : L.Inherits ℓ ℓ' b) (h' : L.Inherits ℓ' ℓ'' b) : L.Inherits ℓ ℓ'' b := by
  intro s n hs hown hp
  rcases h s n hs hown hp with hp' | hl
  · exact h' s n hs hown hp'
  · exact Or.inr hl

/-- A debt passes on with the log. -/
theorem owed (h : L.Inherits ℓ ℓ' b) {v : ι} (hv : L.Owed v ℓ b) : L.Owed v ℓ' b := by
  intro s n hs ha hown
  rcases hv s n hs ha hown with hp | hl
  · exact h s n hs.le hown hp
  · exact Or.inr hl

/-- Backing is inherited. -/
theorem backed (h : L.Inherits ℓ ℓ' b) {v : ι} (hv : L.Backed v ℓ b) : L.Backed v ℓ' b := by
  intro s n hs ha hown
  rcases hv s n hs ha hown with hp | hl
  · exact h s n hs hown hp
  · exact Or.inr hl

end History.Inherits

/-- What is backed is owed to the leaders before. -/
theorem History.Backed.owed {v : ι} {ℓ : List α} {b : ℕ} (h : L.Backed v ℓ b) :
    L.Owed v ℓ b := fun s n hs => h s n hs.le

/-- Before a term has a leader, nobody has acknowledged anything in it. -/
theorem History.Owed.backed (hL : L.Sound members) {v : ι} {ℓ : List α} {t : ℕ}
    (h : L.Owed v ℓ t) (hno : ¬ L.Elected t) : L.Backed v ℓ t := by
  intro s n hs ha hown
  rcases Nat.eq_or_lt_of_le hs with rfl | hlt
  · exact absurd (hL.acked_le v s n ha).1 hno
  · exact h s n hlt ha hown

namespace History.Sound

/-- No entry of a leader's log is newer than the leader. -/
theorem term_le (h : L.Sound members) {t k : ℕ} {e : α} (hk : (L.log t)[k]? = some e) :
    term e ≤ t := by
  by_cases hb : k < (L.base t).length
  · have hpre := List.prefix_iff_getElem?.mp (h.base_prefix t) k hb
    have heq : (L.base t)[k] = e := Option.some.inj (hpre.symm.trans hk)
    exact (h.base_term t e (heq ▸ List.getElem_mem hb)).le
  · exact (h.own_term t k e (by omega) hk).le

/-- An entry of the leader's own term lies beyond its base. -/
theorem base_length_le (h : L.Sound members) {t k : ℕ} {e : α}
    (hk : (L.log t)[k]? = some e) (he : term e = t) : (L.base t).length ≤ k := by
  by_contra hlt
  have hlt : k < (L.base t).length := by omega
  have hpre := List.prefix_iff_getElem?.mp (h.base_prefix t) k hlt
  have heq : (L.base t)[k] = e := Option.some.inj (hpre.symm.trans hk)
  have := h.base_term t e (heq ▸ List.getElem_mem hlt)
  omega

/-- A chained log ending in term `s` contains the base of leader `s`. -/
theorem base_prefix_of_last (h : L.Sound members) {ℓ : List α} (hℓ : L.Chained ℓ)
    {k : ℕ} {e : α} (hk : ℓ[k]? = some e) : L.base (term e) <+: ℓ := by
  have hpre := (hℓ k e hk).2
  have hlt : k < ℓ.length := (List.getElem?_eq_some_iff.mp hk).1
  have hlog : (L.log (term e))[k]? = some e := by
    have hlen : k < (ℓ.take (k + 1)).length := by simp only [List.length_take]; omega
    rw [List.prefix_iff_getElem?.mp hpre k hlen, List.getElem_take,
      ← List.getElem?_eq_getElem hlt, hk]
  have hb := h.base_length_le hlog rfl
  have := List.prefix_of_prefix_length_le (h.base_prefix (term e)) hpre
    (by simp only [List.length_take]; omega)
  exact this.trans (List.take_prefix _ _)

/-- **Leader completeness.**  Every leader elected after a commitment started
with the committed prefix. -/
theorem leader_completeness [DecidableEq ι] (h : L.Sound members) {t n : ℕ}
    (hc : L.Committed members t n) :
    ∀ u, t < u → L.Elected u → (L.log t).take n <+: L.base u := by
  intro u
  induction u using Nat.strongRecOn with
  | ind u ih =>
      intro htu hel
      obtain ⟨hown, Q, hQ, hacked⟩ := hc
      obtain ⟨v, hv, hv'⟩ := hQ.exists_common (h.voters_majority u hel)
      rcases h.voters_backed u hel v hv' t n htu (hacked v hv) hown with hp | hlost
      · exact hp
      · obtain ⟨w, htw, hwu, hw, hno⟩ := hlost
        exact absurd (ih w (by omega) htw hw) hno

/-- The leader of a later term holds every committed prefix. -/
theorem committed_prefix_log [DecidableEq ι] (h : L.Sound members) {t n u : ℕ}
    (hc : L.Committed members t n) (htu : t ≤ u) (hel : L.Elected u) :
    (L.log t).take n <+: L.log u := by
  rcases Nat.lt_or_ge t u with hlt | hge
  · exact (h.leader_completeness hc u hlt hel).trans (h.base_prefix u)
  · obtain rfl : t = u := by omega
    exact List.take_prefix _ _

/-- The term of a commitment had a leader. -/
theorem elected_of_committed (h : L.Sound members) {t n : ℕ}
    (hc : L.Committed members t n) : L.Elected t := by
  obtain ⟨_, Q, hQ, hacked⟩ := hc
  obtain ⟨v, hv⟩ := hQ.nonempty
  exact (h.acked_le v t n (hacked v hv)).1

end History.Sound

namespace History.Settled

/-- A settled list stays settled by any later term. -/
theorem mono {ℓ : List α} {b b' : ℕ} (h : L.Settled members ℓ b) (hb : b ≤ b') :
    L.Settled members ℓ b' := by
  rcases h with rfl | ⟨t, n, hc, ht, hp⟩
  · exact Or.inl rfl
  · exact Or.inr ⟨t, n, hc, by omega, hp⟩

/-- A prefix of a settled list is settled. -/
theorem shorten {ℓ ℓ' : List α} {b : ℕ} (h : L.Settled members ℓ b) (hp : ℓ' <+: ℓ) :
    L.Settled members ℓ' b := by
  rcases h with rfl | ⟨t, n, hc, ht, hp'⟩
  · exact Or.inl (List.prefix_nil.mp hp)
  · exact Or.inr ⟨t, n, hc, ht, hp.trans hp'⟩

/-- Whoever leads a later term holds every settled list. -/
theorem prefix_log [DecidableEq ι] (hL : L.Sound members) {ℓ : List α} {b u : ℕ}
    (h : L.Settled members ℓ b) (hb : b ≤ u) (hel : L.Elected u) : ℓ <+: L.log u := by
  rcases h with rfl | ⟨t, n, hc, ht, hp⟩
  · exact List.nil_prefix
  · exact hp.trans (hL.committed_prefix_log hc (by omega) hel)

/-- **State-machine safety.**  Of two settled lists one extends the other. -/
theorem comparable [DecidableEq ι] (hL : L.Sound members) {ℓ ℓ' : List α} {b b' : ℕ}
    (h : L.Settled members ℓ b) (h' : L.Settled members ℓ' b') : ℓ <+: ℓ' ∨ ℓ' <+: ℓ := by
  rcases h with rfl | ⟨t, n, hc, ht, hp⟩
  · exact Or.inl List.nil_prefix
  rcases h' with rfl | ⟨t', n', hc', ht', hp'⟩
  · exact Or.inr List.nil_prefix
  rcases Nat.le_total t t' with hle | hle
  · exact List.prefix_or_prefix_of_prefix
      (hp.trans (hL.committed_prefix_log hc hle (hL.elected_of_committed hc')))
      (hp'.trans (List.take_prefix _ _))
  · exact List.prefix_or_prefix_of_prefix (hp.trans (List.take_prefix _ _))
      (hp'.trans (hL.committed_prefix_log hc' hle (hL.elected_of_committed hc)))

/-- Two logs agree as far as both are settled. -/
theorem take_eq [DecidableEq ι] (hL : L.Sound members) {ℓ ℓ' : List α} {b b' c c' k : ℕ}
    (h : L.Settled members (ℓ.take c) b) (h' : L.Settled members (ℓ'.take c') b')
    (hc : c ≤ ℓ.length) (hc' : c' ≤ ℓ'.length) (hk : k ≤ c) (hk' : k ≤ c') :
    ℓ.take k = ℓ'.take k := by
  -- both cut down to `k` entries are settled, and equally long
  have hs := h.shorten (List.take_prefix_take_left hk)
  have hs' := h'.shorten (List.take_prefix_take_left hk')
  have hlen : (ℓ.take k).length = (ℓ'.take k).length := by
    rw [List.length_take, List.length_take, min_eq_left (hk.trans hc), min_eq_left (hk'.trans hc')]
  rcases hs.comparable hL hs' with hp | hp
  · exact hp.eq_of_length hlen
  · exact (hp.eq_of_length hlen.symm).symm

end History.Settled

/-! ## What one replica owes -/

/-- Replica `v`, in term `b`, holds log `ℓ` and has committed its first `c`
entries, in keeping with everything it has acknowledged and voted for. -/
structure Standing (L : History ι α) (members : Finset ι) (v : ι) (b : ℕ)
    (ℓ : List α) (c : ℕ) : Prop where
  chained : L.Chained ℓ
  term_le : ∀ e ∈ ℓ, term e ≤ b
  acked_le : ∀ t n, L.acked v t n → t ≤ b
  voter_le : ∀ t, v ∈ L.voters t → t ≤ b
  backed : L.Backed v ℓ b
  commit_le : c ≤ ℓ.length
  settled : L.Settled members (ℓ.take c) b

omit [Termed α] in
/-- A loss by one term is a loss by any later term. -/
theorem History.Lost.mono {t n b b' : ℕ} (h : L.Lost t n b) (hb : b ≤ b') :
    L.Lost t n b' := by
  obtain ⟨u, htu, hub, hel, hno⟩ := h
  exact ⟨u, htu, by omega, hel, hno⟩

namespace Standing

variable {v : ι} {b c : ℕ} {ℓ : List α}

/-- Moving to a later term changes nothing. -/
theorem bump (h : Standing L members v b ℓ c) {b' : ℕ} (hb : b ≤ b') :
    Standing L members v b' ℓ c where
  chained := h.chained
  term_le := fun e he => (h.term_le e he).trans hb
  acked_le := fun t n ha => (h.acked_le t n ha).trans hb
  voter_le := fun t hv => (h.voter_le t hv).trans hb
  backed := fun t n _ ha hown =>
    (h.backed t n (h.acked_le t n ha) ha hown).imp_right fun hl => hl.mono hb
  commit_le := h.commit_le
  settled := h.settled.mono hb

/-- The commit index may move to any settled prefix. -/
theorem commit (h : Standing L members v b ℓ c) {c' : ℕ} (hc : c' ≤ ℓ.length)
    (hs : L.Settled members (ℓ.take c') b) : Standing L members v b ℓ c' :=
  { h with commit_le := hc, settled := hs }

/-- What a replica has committed is in the log of every leader it can hear. -/
theorem committed_prefix_log [DecidableEq ι] (hL : L.Sound members)
    (h : Standing L members v b ℓ c) {u : ℕ} (hb : b ≤ u) (hel : L.Elected u) :
    ℓ.take c <+: L.log u :=
  h.settled.prefix_log hL hb hel

/-- What a log shares with a leader's log is kept when it is replaced by enough of the
leader's log, and so is all it holds that no leader lost. -/
theorem inherits_adopt [DecidableEq ι] (hL : L.Sound members) {t m : ℕ} (htb : t ≤ b)
    (hel : L.Elected t) (hcommon : ∀ p, p <+: ℓ → p <+: L.log t → p.length ≤ m)
    (hlate : t = b ∨ ∃ n, L.Committed members t n ∧ m ≤ n ∧ ¬ (L.log t).take n <+: ℓ) :
    L.Inherits ℓ ((L.log t).take m) b := by
  have hkeep : ∀ p, p <+: ℓ → p <+: L.log t → p <+: (L.log t).take m := fun p hp hp' =>
    List.prefix_take_iff.mpr ⟨hp', hcommon p hp hp'⟩
  intro s n hs hown hp
  rcases Nat.lt_trichotomy s t with hst | rfl | hts
  · -- the adopted log belongs to a later leader: it has the prefix or lost it
    by_cases hbase : (L.log s).take n <+: L.base t
    · exact Or.inl (hkeep _ hp (hbase.trans (hL.base_prefix t)))
    · exact Or.inr ⟨t, hst, htb, hel, hbase⟩
  · exact Or.inl (hkeep _ hp (List.take_prefix _ _))
  · -- an older commitment: leader `s` already held it, so nothing can conflict
    rcases hlate with rfl | ⟨n', hcom, hmn, hno⟩
    · omega
    have hcs := hL.committed_prefix_log hcom hts.le (hown.elected hL)
    rcases List.prefix_or_prefix_of_prefix (List.take_prefix n (L.log s)) hcs with hle | hle
    · exact Or.inl (hkeep _ hp (hle.trans (List.take_prefix _ _)))
    · exact absurd (hle.trans hp) hno

/-- **Adoption.**  A replica may replace its log by the first `m` entries of a
leader's log, provided `m` covers everything the two logs agree on, and the
leader is the one of its own term or the prefix is being taken from a
commitment the replica does not hold yet. -/
theorem adopt [DecidableEq ι] (hL : L.Sound members) (h : Standing L members v b ℓ c)
    {t m : ℕ} (htb : t ≤ b) (hel : L.Elected t)
    (hcommon : ∀ p, p <+: ℓ → p <+: L.log t → p.length ≤ m)
    (hlate : t = b ∨ ∃ n, L.Committed members t n ∧ m ≤ n ∧ ¬ (L.log t).take n <+: ℓ) :
    Standing L members v b ((L.log t).take m) c := by
  have hkeep : ∀ p, p <+: ℓ → p <+: L.log t → p <+: (L.log t).take m := fun p hp hp' =>
    List.prefix_take_iff.mpr ⟨hp', hcommon p hp hp'⟩
  have hsettled : ℓ.take c <+: (L.log t).take m := by
    refine hkeep _ (List.take_prefix _ _) ?_
    rcases hlate with rfl | ⟨n, hcom, hmn, hno⟩
    · exact h.settled.prefix_log hL le_rfl hel
    · have hP : L.Settled members ((L.log t).take n) t :=
        Or.inr ⟨t, n, hcom, le_rfl, List.prefix_rfl⟩
      rcases h.settled.comparable hL hP with hle | hle
      · exact hle.trans (List.take_prefix _ _)
      · exact absurd (hle.trans (List.take_prefix _ _)) hno
  constructor
  · exact (hL.chained t).shorten (List.take_prefix _ _)
  · intro e he
    obtain ⟨k, hk⟩ := List.mem_iff_getElem?.mp ((List.take_prefix m _).subset he)
    exact (hL.term_le hk).trans htb
  · exact h.acked_le
  · exact h.voter_le
  · exact (inherits_adopt hL htb hel hcommon hlate).backed h.backed
  · have := hsettled.length_le
    have hc := h.commit_le
    simp only [List.length_take] at this ⊢
    omega
  · have heq := List.prefix_iff_eq_take.mp hsettled
    rw [List.length_take, min_eq_left h.commit_le] at heq
    exact heq ▸ h.settled

end Standing

/-! ## Copying from a leader -/

/-- What a replica in term `b` may copy: part of the log of that term's leader, or
a settled list. -/
def History.Vouched (L : History ι α) (members : Finset ι) (P : List α) (b : ℕ) : Prop :=
  L.Elected b ∧ P <+: L.log b ∨ L.Settled members P b

/-- `ℓ` and `ℓ'` have entries of one term right before position `k`. -/
def SameTermAt (ℓ ℓ' : List α) (k : ℕ) : Prop :=
  ∃ e e', 0 < k ∧ ℓ[k - 1]? = some e ∧ ℓ'[k - 1]? = some e' ∧ term e = term e'

/-- There is an entry to compare. -/
theorem SameTermAt.le {ℓ ℓ' : List α} {k : ℕ} (h : SameTermAt ℓ ℓ' k) : k ≤ ℓ.length := by
  obtain ⟨e, e', hpos, he, -⟩ := h
  have := (List.getElem?_eq_some_iff.mp he).1
  omega

/-- Log matching, for positions. -/
theorem SameTermAt.take_eq {ℓ ℓ' : List α} {k : ℕ} (h : SameTermAt ℓ ℓ' k) (hℓ : L.Chained ℓ)
    (hℓ' : L.Chained ℓ') : ℓ.take k = ℓ'.take k := by
  obtain ⟨e, e', hpos, he, he', hterm⟩ := h
  have := hℓ.matching hℓ' he he' hterm
  rwa [Nat.sub_add_cancel hpos] at this

namespace History.Vouched

variable {P : List α} {b : ℕ}

/-- What is vouched for is chained to the leaders' logs. -/
theorem chained (hL : L.Sound members) (h : L.Vouched members P b) : L.Chained P := by
  rcases h with ⟨-, hp⟩ | rfl | ⟨t, n, -, -, hp⟩
  · exact (hL.chained b).shorten hp
  · intro k e hk
    simp at hk
  · exact (hL.chained t).shorten (hp.trans (List.take_prefix _ _))

/-- A prefix is vouched for as well. -/
theorem shorten {P' : List α} (h : L.Vouched members P b) (hp : P' <+: P) :
    L.Vouched members P' b := by
  rcases h with ⟨hel, hpre⟩ | hs
  · exact Or.inl ⟨hel, hp.trans hpre⟩
  · exact Or.inr (hs.shorten hp)

/-- Whoever leads the term holds what is vouched for in it. -/
theorem prefix_log [DecidableEq ι] (hL : L.Sound members) (h : L.Vouched members P b)
    (hel : L.Elected b) : P <+: L.log b := by
  rcases h with ⟨-, hp⟩ | hs
  · exact hp
  · exact hs.prefix_log hL le_rfl hel

end History.Vouched

namespace Standing

variable [DecidableEq ι] {v : ι} {b c : ℕ} {ℓ P : List α}

/-- What is committed agrees with what is vouched for. -/
theorem take_committed (hL : L.Sound members) (h : Standing L members v b ℓ c)
    (hP : L.Vouched members P b) {k : ℕ} (hk : k ≤ c) (hkP : k ≤ P.length) :
    ℓ.take k = P.take k := by
  have hcomm : ℓ.take c <+: P ∨ P <+: ℓ.take c := by
    rcases hP with ⟨hel, hp⟩ | hs
    · exact List.prefix_or_prefix_of_prefix (h.settled.prefix_log hL le_rfl hel) hp
    · exact h.settled.comparable hL hs
  have hc := h.commit_le
  have htake : (ℓ.take c).take k = P.take k := by
    rcases hcomm with hp | hp
    · obtain ⟨rest, rfl⟩ := hp
      rw [List.take_append_of_le_length]
      rw [List.length_take]
      omega
    · obtain ⟨rest, hrest⟩ := hp
      rw [← hrest, List.take_append_of_le_length hkP]
  rwa [List.take_take, min_eq_left hk] at htake

/-- Up to a position where it holds an entry of the same term, or which it has
committed, a log agrees with what is vouched for. -/
theorem take_eq (hL : L.Sound members) (h : Standing L members v b ℓ c)
    (hP : L.Vouched members P b) {k : ℕ} (hkP : k ≤ P.length)
    (hk : k ≤ c ∨ SameTermAt ℓ P k) : ℓ.take k = P.take k := by
  rcases hk with hle | hsame
  · exact h.take_committed hL hP hle hkP
  · exact hsame.take_eq h.chained (hP.chained hL)

/-- **Grafting.**  A log that lacks part of what is vouched for may be replaced by
the first `m` entries of that, as long as they cover everything the two share. -/
theorem graft (hL : L.Sound members) (h : Standing L members v b ℓ c)
    (hP : L.Vouched members P b) (hno : ¬ P <+: ℓ) {m : ℕ}
    (hm : ∀ p, p <+: ℓ → p <+: P → p.length ≤ m) :
    Standing L members v b (P.take m) c ∧ L.Inherits ℓ (P.take m) b := by
  -- the log of the leader that `P` comes from
  obtain ⟨t, htb, hel, hpre, hlate⟩ : ∃ t, t ≤ b ∧ L.Elected t ∧ P <+: L.log t ∧
      (t = b ∨ ∃ n, L.Committed members t n ∧ P <+: (L.log t).take n) := by
    rcases hP with ⟨hel, hp⟩ | rfl | ⟨t, n, hc, ht, hp⟩
    · exact ⟨b, le_rfl, hel, hp, Or.inl rfl⟩
    · exact absurd List.nil_prefix hno
    · exact ⟨t, ht, hL.elected_of_committed hc, hp.trans (List.take_prefix _ _),
        Or.inr ⟨n, hc, hp⟩⟩
  have hcut : P.take m = (L.log t).take (min m P.length) := by
    obtain ⟨rest, hrest⟩ := hpre
    rw [← hrest, List.take_append_of_le_length (min_le_right _ _)]
    rcases Nat.le_total m P.length with hle | hle
    · rw [min_eq_left hle]
    · rw [min_eq_right hle, List.take_of_length_le hle, List.take_length]
  have hcommon : ∀ p, p <+: ℓ → p <+: L.log t → p.length ≤ min m P.length := by
    intro p hp hp'
    rcases List.prefix_or_prefix_of_prefix hp' hpre with hle | hle
    · exact le_min (hm p hp hle) hle.length_le
    · exact absurd (hle.trans hp) hno
  have hlate' : t = b ∨ ∃ n, L.Committed members t n ∧ min m P.length ≤ n ∧
      ¬ (L.log t).take n <+: ℓ := by
    refine hlate.imp_right fun ⟨n, hc, hp⟩ => ⟨n, hc, ?_, fun h' => hno (hp.trans h')⟩
    have := hp.length_le
    rw [List.length_take] at this
    omega
  rw [hcut]
  exact ⟨h.adopt hL htb hel hcommon hlate', inherits_adopt hL htb hel hcommon hlate'⟩

/-- A whole list that is vouched for may be put in front of a log that it covers, or
that agrees with it. -/
theorem install (hL : L.Sound members) (h : Standing L members v b ℓ c)
    (hP : L.Vouched members P b) (hcov : ℓ.length ≤ P.length ∨ ℓ.take P.length = P) :
    Standing L members v b (P ++ ℓ.drop P.length) c ∧
      L.Inherits ℓ (P ++ ℓ.drop P.length) b ∧ (P <+: ℓ → P ++ ℓ.drop P.length = ℓ) := by
  have hsame : P <+: ℓ → P ++ ℓ.drop P.length = ℓ := fun hp =>
    List.prefix_append_drop hp |>.symm
  by_cases hp : P <+: ℓ
  · rw [hsame hp]
    exact ⟨h, .refl ℓ b, fun _ => rfl⟩
  · have hle : ℓ.length ≤ P.length := hcov.resolve_right fun heq =>
      hp (heq ▸ List.take_prefix _ _)
    have hgraft := h.graft hL hP hp (m := P.length) fun p _ hp' => hp'.length_le
    rw [List.take_length] at hgraft
    rw [List.drop_of_length_le hle, List.append_nil]
    exact ⟨hgraft.1, hgraft.2, fun hp' => absurd hp' hp⟩

end Standing

/-- A log on its way from `ℓ₀`, the first `i` entries of `P` copied: either it is
still `ℓ₀`, or it ends there. -/
structure Grafting (L : History ι α) (members : Finset ι) (v : ι) (b c : ℕ) (P ℓ₀ : List α)
    (i : ℕ) (ℓ : List α) : Prop where
  standing : Standing L members v b ℓ c
  copied : ℓ.take i = P.take i
  ends : ℓ = ℓ₀ ∨ ℓ.length = i
  inherits : L.Inherits ℓ₀ ℓ b
  idle : P <+: ℓ₀ → ℓ = ℓ₀

namespace Grafting

variable {v : ι} {b c i : ℕ} {P ℓ₀ ℓ : List α}

/-- Nothing was grafted yet. -/
theorem start (h : Standing L members v b ℓ₀ c) (hi : ℓ₀.take i = P.take i) :
    Grafting L members v b c P ℓ₀ i ℓ₀ :=
  ⟨h, hi, Or.inl rfl, .refl ℓ₀ b, fun _ => rfl⟩

/-- The log goes on agreeing with `P` for one entry more. -/
theorem extend (h : Grafting L members v b c P ℓ₀ i ℓ) (hi : i < ℓ.length)
    (hcopied : ℓ.take (i + 1) = P.take (i + 1)) :
    Grafting L members v b c P ℓ₀ (i + 1) ℓ := by
  refine ⟨h.standing, hcopied, Or.inl ?_, h.inherits, h.idle⟩
  exact h.ends.resolve_right (by omega)

variable [DecidableEq ι]

omit [DecidableEq ι] in
/-- A list long enough to reach where two logs part is not in front of both. -/
theorem length_le_of_parting {e e' : α} (he : P[i]? = some e) (he' : ℓ[i]? = some e')
    (hne : term e' ≠ term e) {p : List α} (hp : p <+: ℓ) (hp' : p <+: P) : p.length ≤ i := by
  by_contra hgt
  have hi : i < p.length := by omega
  have h1 := List.prefix_iff_getElem?.mp hp i hi
  have h2 := List.prefix_iff_getElem?.mp hp' i hi
  rw [he'] at h1
  rw [he] at h2
  exact hne (by rw [Option.some.inj h1, Option.some.inj h2])

/-- The log is cut where it parts from `P`. -/
theorem cut (hL : L.Sound members) (hP : L.Vouched members P b)
    (h : Grafting L members v b c P ℓ₀ i ℓ) {e e' : α} (he : P[i]? = some e)
    (he' : ℓ[i]? = some e') (hne : term e' ≠ term e) :
    Grafting L members v b c P ℓ₀ i (ℓ.take i) := by
  have hlt : i < ℓ.length := (List.getElem?_eq_some_iff.mp he').1
  have hpart : ∀ p, p <+: ℓ → p <+: P → p.length ≤ i := fun p =>
    length_le_of_parting he he' hne
  have hiP : i < P.length := (List.getElem?_eq_some_iff.mp he).1
  have hno : ¬ P <+: ℓ := fun hp => by
    have := hpart P hp List.prefix_rfl
    omega
  obtain ⟨hst, hin⟩ := h.standing.graft hL hP hno hpart
  rw [← h.copied] at hst hin
  refine ⟨hst, ?_, Or.inr ?_, h.inherits.trans hin, fun hp => ?_⟩
  · rw [List.take_take, min_self, h.copied]
  · rw [List.length_take]
    omega
  · exact absurd (h.idle hp ▸ hp) hno

/-- The next entry of `P` is appended. -/
theorem add (hL : L.Sound members) (hP : L.Vouched members P b)
    (h : Grafting L members v b c P ℓ₀ i ℓ) {e : α} (he : P[i]? = some e) (hlen : ℓ.length = i) :
    Grafting L members v b c P ℓ₀ (i + 1) (ℓ ++ [e]) := by
  have hiP : i < P.length := (List.getElem?_eq_some_iff.mp he).1
  have hno : ¬ P <+: ℓ := fun hp => by
    have := hp.length_le
    omega
  obtain ⟨hst, hin⟩ := h.standing.graft hL hP hno (m := i + 1) fun p hp _ => by
    have := hp.length_le
    omega
  have hnext : P.take (i + 1) = ℓ ++ [e] := by
    have hget : P[i] = e := Option.some.inj ((List.getElem?_eq_getElem hiP).symm.trans he)
    rw [List.take_succ_eq_append_getElem hiP, ← h.copied, List.take_of_length_le hlen.le, hget]
  rw [hnext] at hst hin
  refine ⟨hst, ?_, Or.inr (by simp [hlen]), h.inherits.trans hin, fun hp => ?_⟩
  · rw [hnext, List.take_of_length_le (by simp [hlen])]
  · exact absurd (h.idle hp ▸ hp) hno

end Grafting

/-! ## How a ledger grows -/

namespace History

/-- `L'` continues `L`: nothing recorded is forgotten or rewritten. -/
structure Grows (L L' : History ι α) : Prop where
  leader : ∀ t c, L.leader t = some c → L'.leader t = some c
  voters : ∀ t, L.Elected t → L'.voters t = L.voters t
  base : ∀ t, L.Elected t → L'.base t = L.base t
  log : ∀ t, L.log t <+: L'.log t
  acked : ∀ v t n, L.acked v t n → L'.acked v t n

variable {L' : History ι α}

namespace Grows

omit [Termed α] in
theorem refl (L : History ι α) : L.Grows L :=
  ⟨fun _ _ h => h, fun _ _ => rfl, fun _ _ => rfl, fun _ => List.prefix_rfl, fun _ _ _ h => h⟩

omit [Termed α] in
/-- An election is never undone. -/
theorem elected (h : L.Grows L') {t : ℕ} (ht : L.Elected t) : L'.Elected t := by
  obtain ⟨c, hc⟩ := Option.isSome_iff_exists.mp ht
  exact Option.isSome_iff_exists.mpr ⟨c, h.leader t c hc⟩

omit [Termed α] in
theorem trans {L'' : History ι α} (h : L.Grows L') (h' : L'.Grows L'') : L.Grows L'' where
  leader := fun t c hc => h'.leader t c (h.leader t c hc)
  voters := fun t ht => (h'.voters t (h.elected ht)).trans (h.voters t ht)
  base := fun t ht => (h'.base t (h.elected ht)).trans (h.base t ht)
  log := fun t => (h.log t).trans (h'.log t)
  acked := fun v t n ha => h'.acked v t n (h.acked v t n ha)

omit [Termed α] in
/-- Acknowledged prefixes are not rewritten. -/
theorem take_log (h : L.Grows L') {t n : ℕ} (hn : n ≤ (L.log t).length) :
    (L'.log t).take n = (L.log t).take n := by
  have hp : (L.log t).take n <+: L'.log t := (List.take_prefix _ _).trans (h.log t)
  have heq := List.prefix_iff_eq_take.mp hp
  rw [List.length_take, min_eq_left hn] at heq
  exact heq.symm

omit [Termed α] in
/-- An entry once in a leader's log stays at its index. -/
theorem getElem?_log (h : L.Grows L') {t k : ℕ} (hk : k < (L.log t).length) :
    (L'.log t)[k]? = (L.log t)[k]? :=
  (List.prefix_iff_getElem?.mp (h.log t) k hk).trans (List.getElem?_eq_getElem hk).symm

/-- A prefix ending in the leader's own term keeps that end. -/
theorem own_iff (h : L.Grows L') {t n : ℕ} (hn : n ≤ (L.log t).length) :
    L'.Own t n ↔ L.Own t n := by
  constructor
  · rintro ⟨k, e, rfl, hk, he⟩
    exact ⟨k, e, rfl, (h.getElem?_log (by omega)).symm.trans hk, he⟩
  · rintro ⟨k, e, rfl, hk, he⟩
    exact ⟨k, e, rfl, (h.getElem?_log (by omega)).trans hk, he⟩

/-- Log order is kept as ledgers grow. -/
theorem chained (h : L.Grows L') {ℓ : List α} (hℓ : L.Chained ℓ) : L'.Chained ℓ :=
  fun k e hk => ⟨h.elected (hℓ k e hk).1, (hℓ k e hk).2.trans (h.log _)⟩

omit [Termed α] in
/-- What was lost stays lost. -/
theorem lost (h : L.Grows L') {t n b : ℕ} (hn : n ≤ (L.log t).length) (hl : L.Lost t n b) :
    L'.Lost t n b := by
  obtain ⟨u, htu, hub, hel, hno⟩ := hl
  refine ⟨u, htu, hub, h.elected hel, ?_⟩
  rwa [h.take_log hn, h.base u hel]

/-- What was committed stays committed. -/
theorem committed (hL : L.Sound members) (h : L.Grows L') {t n : ℕ}
    (hc : L.Committed members t n) : L'.Committed members t n := by
  obtain ⟨hown, Q, hQ, hacked⟩ := hc
  obtain ⟨v, hv⟩ := hQ.nonempty
  exact ⟨(h.own_iff (hL.acked_le v t n (hacked v hv)).2).mpr hown, Q, hQ,
    fun w hw => h.acked w t n (hacked w hw)⟩

/-- What was settled stays settled. -/
theorem settled (hL : L.Sound members) (h : L.Grows L') {ℓ : List α} {b : ℕ}
    (hs : L.Settled members ℓ b) : L'.Settled members ℓ b := by
  rcases hs with rfl | ⟨t, n, hc, ht, hp⟩
  · exact Or.inl rfl
  · refine Or.inr ⟨t, n, h.committed hL hc, ht, ?_⟩
    obtain ⟨hown, Q, hQ, hacked⟩ := hc
    obtain ⟨v, hv⟩ := hQ.nonempty
    rwa [h.take_log (hL.acked_le v t n (hacked v hv)).2]

/-- A debt survives growth that records no older acknowledgement. -/
theorem owed (hL : L.Sound members) (h : L.Grows L') {v : ι} {ℓ : List α} {t : ℕ}
    (hack : ∀ s n, s < t → L'.acked v s n → L.acked v s n) (hv : L.Owed v ℓ t) :
    L'.Owed v ℓ t := by
  intro s n hs ha hown
  have ha := hack s n hs ha
  have hn := (hL.acked_le v s n ha).2
  rw [h.take_log hn]
  exact (hv s n hs ha ((h.own_iff hn).mp hown)).imp_right fun hl => h.lost hn hl

/-- What a chained log holds of a leader's log, the leader wrote before. -/
theorem length_le_of_own {ℓ : List α} (hℓ : L.Chained ℓ) {s n : ℕ}
    (hown : L'.Own s n) (hp : (L'.log s).take n <+: ℓ) : n ≤ (L.log s).length := by
  have hlen := hown.length_take.1
  obtain ⟨k, e, rfl, hk, rfl⟩ := hown
  have hlt : k < ((L'.log (term e)).take (k + 1)).length := by omega
  have hkℓ : ℓ[k]? = some e := by
    rw [List.prefix_iff_getElem?.mp hp k hlt, List.getElem_take,
      ← List.getElem?_eq_getElem (List.getElem?_eq_some_iff.mp hk).1, hk]
  have hle := (hℓ k e hkℓ).2.length_le
  have hkl : k < ℓ.length := (List.getElem?_eq_some_iff.mp hkℓ).1
  rw [List.length_take] at hle
  omega

/-- Inheritance survives growth. -/
theorem inherits (h : L.Grows L') {ℓ ℓ' : List α} {b : ℕ} (hℓ : L.Chained ℓ)
    (hin : L.Inherits ℓ ℓ' b) : L'.Inherits ℓ ℓ' b := by
  intro s n hs hown hp
  have hn := length_le_of_own hℓ hown hp
  rw [h.take_log hn] at hp ⊢
  exact (hin s n hs ((h.own_iff hn).mp hown) hp).imp_right fun hl => h.lost hn hl

end Grows

end History

/-- A replica's standing survives any growth that records nothing new about it. -/
theorem Standing.grow (hL : L.Sound members) {L' : History ι α} (hg : L.Grows L') {v : ι}
    {b c : ℕ} {ℓ : List α} (h : Standing L members v b ℓ c)
    (hack : ∀ t n, L'.acked v t n → L.acked v t n)
    (hvote : ∀ t, v ∈ L'.voters t → t ≤ b) : Standing L' members v b ℓ c where
  chained := hg.chained h.chained
  term_le := h.term_le
  acked_le := fun t n ha => h.acked_le t n (hack t n ha)
  voter_le := hvote
  backed := by
    intro t n ht ha hown
    have ha := hack t n ha
    have hn := (hL.acked_le v t n ha).2
    rw [hg.take_log hn]
    exact (h.backed t n ht ha ((hg.own_iff hn).mp hown)).imp_right fun hl => hg.lost hn hl
  commit_le := h.commit_le
  settled := hg.settled hL h.settled

namespace History

variable [DecidableEq ι]

/-- Record that replica `v` holds the first `n` entries of the log of leader `t`. -/
def acknowledge (L : History ι α) (v : ι) (t n : ℕ) : History ι α :=
  { L with acked := fun w s m => L.acked w s m ∨ w = v ∧ s = t ∧ m ≤ n }

/-- Record that leader `t` appended an entry. -/
def append (L : History ι α) (t : ℕ) (e : α) : History ι α :=
  { L with log := Function.update L.log t (L.log t ++ [e]) }

/-- Record that the voters `Q` elected `c` in term `t` with log `ℓ`. -/
def elect (L : History ι α) (t : ℕ) (c : ι) (Q : Finset ι) (ℓ : List α) : History ι α :=
  { L with
    leader := Function.update L.leader t (some c)
    voters := Function.update L.voters t Q
    base := Function.update L.base t ℓ
    log := Function.update L.log t ℓ }

omit [Termed α] [DecidableEq ι] in
/-- An acknowledgement is added. -/
theorem grows_acknowledge (L : History ι α) (v : ι) (t n : ℕ) :
    L.Grows (L.acknowledge v t n) where
  leader := fun _ _ h => h
  voters := fun _ _ => rfl
  base := fun _ _ => rfl
  log := fun _ => List.prefix_rfl
  acked := fun _ _ _ h => Or.inl h

omit [Termed α] [DecidableEq ι] in
/-- An entry is added to a leader's log. -/
theorem grows_append (L : History ι α) (t : ℕ) (e : α) : L.Grows (L.append t e) where
  leader := fun _ _ h => h
  voters := fun _ _ => rfl
  base := fun _ _ => rfl
  log := by
    intro s
    by_cases hs : s = t
    · subst hs
      simp [append]
    · simp [append, Function.update_of_ne hs]
  acked := fun _ _ _ h => h

omit [DecidableEq ι] in
/-- A leader is added to a term that had none. -/
theorem grows_elect (hL : L.Sound members) {t : ℕ} (hno : ¬ L.Elected t) (c : ι)
    (Q : Finset ι) (ℓ : List α) : L.Grows (L.elect t c Q ℓ) := by
  have hne : ∀ s, L.Elected s → s ≠ t := fun s hs heq => hno (heq ▸ hs)
  constructor
  · intro s d hs
    have : s ≠ t := hne s (by simp [Elected, hs])
    simpa [elect, Function.update_of_ne this] using hs
  · intro s hs
    simp [elect, Function.update_of_ne (hne s hs)]
  · intro s hs
    simp [elect, Function.update_of_ne (hne s hs)]
  · intro s
    by_cases hs : s = t
    · subst hs
      rw [hL.vacant s hno]
      exact List.nil_prefix
    · simp [elect, Function.update_of_ne hs]
  · exact fun _ _ _ h => h

end History

namespace History.Sound

/-- Acknowledging keeps the rules, as long as the replica has not voted past
the term it acknowledges in. -/
theorem acknowledge (hL : L.Sound members) {v : ι} {t n : ℕ} (hel : L.Elected t)
    (hn : n ≤ (L.log t).length) (hvote : ∀ u, v ∈ L.voters u → u ≤ t) :
    (L.acknowledge v t n).Sound members where
  base_prefix := hL.base_prefix
  base_term := hL.base_term
  own_term := hL.own_term
  vacant := hL.vacant
  chained := hL.chained
  acked_le := by
    rintro w s m (ha | ⟨-, rfl, hm⟩)
    · exact hL.acked_le w s m ha
    · exact ⟨hel, hm.trans hn⟩
  voters_majority := hL.voters_majority
  voters_backed := by
    rintro u hu w hw s m hsu (ha | ⟨rfl, rfl, -⟩) hown
    · exact hL.voters_backed u hu w hw s m hsu ha hown
    · exact absurd (hvote u hw) (by omega)

/-- Appending an entry of the leader's own term keeps the rules. -/
theorem append (hL : L.Sound members) {t : ℕ} {e : α} (hel : L.Elected t)
    (he : term e = t) : (L.append t e).Sound members := by
  have hg := L.grows_append t e
  have hlog : (L.append t e).log t = L.log t ++ [e] := by simp [History.append]
  have hother : ∀ s, s ≠ t → (L.append t e).log s = L.log s := fun s hs => by
    simp [History.append, Function.update_of_ne hs]
  constructor
  · exact fun s => (hL.base_prefix s).trans (hg.log s)
  · exact hL.base_term
  · intro s k e' hk hk'
    by_cases hs : s = t
    · subst hs
      rw [hlog] at hk'
      rcases Nat.lt_or_ge k (L.log s).length with hlt | hge
      · rw [List.getElem?_append_left hlt] at hk'
        exact hL.own_term s k e' hk hk'
      · rw [List.getElem?_append_right hge] at hk'
        obtain ⟨_, hk'⟩ := List.getElem?_eq_some_iff.mp hk'
        simp at hk'
        exact hk' ▸ he
    · rw [hother s hs] at hk'
      exact hL.own_term s k e' hk hk'
  · intro s hs
    have hne : s ≠ t := by
      rintro rfl
      exact hs (hg.elected hel)
    rw [hother s hne]
    exact hL.vacant s hs
  · intro s
    by_cases hs : s = t
    · subst hs
      rw [hlog]
      intro k e' hk
      rcases Nat.lt_or_ge k (L.log s).length with hlt | hge
      · rw [List.getElem?_append_left hlt] at hk
        rw [List.take_append_of_le_length (by omega)]
        exact hg.chained (hL.chained s) k e' hk
      · rw [List.getElem?_append_right hge] at hk
        obtain ⟨_, hk⟩ := List.getElem?_eq_some_iff.mp hk
        simp at hk
        subst hk
        rw [he, hlog]
        refine ⟨hg.elected hel, ?_⟩
        exact List.take_prefix _ _
    · rw [hother s hs]
      exact hg.chained (hL.chained s)
  · intro v s n ha
    obtain ⟨hel', hn⟩ := hL.acked_le v s n ha
    exact ⟨hg.elected hel', hn.trans (hg.log s).length_le⟩
  · exact hL.voters_majority
  · intro u hu v hv s n hsu ha hown
    have hn := (hL.acked_le v s n ha).2
    rw [hg.take_log hn]
    exact (hL.voters_backed u hu v hv s n hsu ha ((hg.own_iff hn).mp hown)).imp_right
      fun hl => hg.lost hn hl

/-- A first election keeps the rules when each vote backs the new leader's log. -/
theorem elect (hL : L.Sound members) {t : ℕ} {c : ι} {Q : Finset ι} {ℓ : List α}
    (hno : ¬ L.Elected t) (hQ : Majority members Q) (hℓ : L.Chained ℓ)
    (hterm : ∀ e ∈ ℓ, term e < t) (hback : ∀ v ∈ Q, L.Backed v ℓ t) :
    (L.elect t c Q ℓ).Sound members := by
  have hg := L.grows_elect hL hno c Q ℓ
  have hother : ∀ s, s ≠ t → (L.elect t c Q ℓ).log s = L.log s ∧
      (L.elect t c Q ℓ).base s = L.base s ∧ (L.elect t c Q ℓ).voters s = L.voters s :=
        fun s hs => by
    simp [History.elect, Function.update_of_ne hs]
  have hself : (L.elect t c Q ℓ).log t = ℓ ∧ (L.elect t c Q ℓ).base t = ℓ ∧
      (L.elect t c Q ℓ).voters t = Q := by simp [History.elect]
  have helected : ∀ s, s ≠ t → (L.elect t c Q ℓ).Elected s → L.Elected s := fun s hs h => by
    simpa [History.Elected, History.elect, Function.update_of_ne hs] using h
  constructor
  · intro s
    by_cases hs : s = t
    · rw [hs, hself.1, hself.2.1]
    · rw [(hother s hs).1, (hother s hs).2.1]
      exact hL.base_prefix s
  · intro s e he
    by_cases hs : s = t
    · subst hs
      rw [hself.2.1] at he
      exact hterm e he
    · rw [(hother s hs).2.1] at he
      exact hL.base_term s e he
  · intro s k e hk hk'
    by_cases hs : s = t
    · subst hs
      rw [hself.2.1] at hk
      rw [hself.1, List.getElem?_eq_none hk] at hk'
      cases hk'
    · rw [(hother s hs).2.1] at hk
      rw [(hother s hs).1] at hk'
      exact hL.own_term s k e hk hk'
  · intro s hs
    have hne : s ≠ t := by
      rintro rfl
      exact hs (by simp [History.Elected, History.elect])
    rw [(hother s hne).1]
    exact hL.vacant s fun h => hs (hg.elected h)
  · intro s
    by_cases hs : s = t
    · subst hs
      rw [hself.1]
      exact hg.chained hℓ
    · rw [(hother s hs).1]
      exact hg.chained (hL.chained s)
  · intro v s n ha
    obtain ⟨hel, hn⟩ := hL.acked_le v s n ha
    exact ⟨hg.elected hel, hn.trans (hg.log s).length_le⟩
  · intro s hs
    by_cases hst : s = t
    · rw [hst, hself.2.2]
      exact hQ
    · rw [(hother s hst).2.2]
      exact hL.voters_majority s (helected s hst hs)
  · intro u hu v hv s n hsu ha hown
    have hn := (hL.acked_le v s n ha).2
    have hown' := (hg.own_iff hn).mp hown
    rw [hg.take_log hn]
    by_cases hut : u = t
    · subst hut
      rw [hself.2.2] at hv
      rw [hself.2.1]
      refine (hback v hv s n hsu.le ha hown').imp_right fun hl => ?_
      -- the new leader itself cannot be the one that lost the prefix
      obtain ⟨w, hsw, hwu, hel, hnot⟩ := hl
      have hwne : w ≠ u := fun heq => hno (heq ▸ hel)
      exact hg.lost hn ⟨w, hsw, by omega, hel, hnot⟩
    · rw [(hother u hut).2.2] at hv
      rw [(hother u hut).2.1]
      exact (hL.voters_backed u (helected u hut hu) v hv s n hsu ha hown').imp_right
        fun hl => hg.lost hn hl

end History.Sound

/-- A replica may acknowledge what it holds of its own leader's log. -/
theorem Standing.acknowledge {v : ι} {b c n : ℕ} {ℓ : List α}
    (h : Standing L members v b ℓ c) (hp : (L.log b).take n <+: ℓ) :
    Standing (L.acknowledge v b n) members v b ℓ c where
  chained := h.chained
  term_le := h.term_le
  acked_le := by
    rintro t m (ha | ⟨-, rfl, -⟩)
    · exact h.acked_le t m ha
    · exact le_rfl
  voter_le := h.voter_le
  backed := by
    rintro t m ht (ha | ⟨-, rfl, hm⟩) hown
    · exact h.backed t m ht ha hown
    · exact Or.inl ((List.take_prefix_take_left hm).trans hp)
  commit_le := h.commit_le
  settled := by
    rcases h.settled with hnil | ⟨t, m, ⟨hown, Q, hQ, ha⟩, ht, hp'⟩
    · exact Or.inl hnil
    · exact Or.inr ⟨t, m, ⟨hown, Q, hQ, fun w hw => Or.inl (ha w hw)⟩, ht, hp'⟩

omit [Termed α] in
/-- Away from its term, an election changes nothing. -/
theorem History.elect_of_ne [DecidableEq ι] (L : History ι α) {t u : ℕ} (c : ι) (Q : Finset ι)
    (ℓ : List α) (hne : u ≠ t) :
    (L.elect t c Q ℓ).leader u = L.leader u ∧ (L.elect t c Q ℓ).voters u = L.voters u ∧
      (L.elect t c Q ℓ).log u = L.log u := by
  simp [History.elect, Function.update_of_ne hne]

/-- A replica in good standing may be elected in its own term, if nobody was and its
voters' debts are in its log. -/
theorem Standing.elect [DecidableEq ι] (hL : L.Sound members) {v : ι} {b c : ℕ} {ℓ : List α}
    (h : Standing L members v b ℓ c) (hno : ¬ L.Elected b) {Q : Finset ι}
    (hQ : Majority members Q) (hback : ∀ w ∈ Q, L.Backed w ℓ b) :
    L.Grows (L.elect b v Q ℓ) ∧ (L.elect b v Q ℓ).Sound members ∧
      Standing (L.elect b v Q ℓ) members v b ℓ c := by
  have hg := History.grows_elect hL hno v Q ℓ
  have hterm : ∀ e ∈ ℓ, term e < b := by
    intro e he
    obtain ⟨k, hk⟩ := List.mem_iff_getElem?.mp he
    have hel := (h.chained k e hk).1
    exact lt_of_le_of_ne (h.term_le e he) fun heq => hno (heq ▸ hel)
  refine ⟨hg, hL.elect hno hQ h.chained hterm hback, h.grow hL hg (fun _ _ ha => ha) fun u hu => ?_⟩
  by_cases hne : u = b
  · exact hne.le
  · rw [(L.elect_of_ne v Q ℓ hne).2.1] at hu
    exact h.voter_le u hu

/-- The ledger with which every run begins: no election, no log. -/
def History.blank (ι α : Type*) : History ι α where
  leader := fun _ => none
  voters := fun _ => ∅
  base := fun _ => []
  log := fun _ => []
  acked := fun _ _ _ => False

/-- The blank ledger keeps the rules. -/
theorem History.sound_blank : (History.blank ι α).Sound members where
  base_prefix := fun _ => List.prefix_rfl
  base_term := by intro t e he; cases he
  own_term := by intro t k e _ hk; simp [blank] at hk
  vacant := fun _ _ => rfl
  chained := by intro t k e hk; simp [blank] at hk
  acked_le := by intro v t n h; cases h
  voters_majority := by intro t h; simp [Elected, blank] at h
  voters_backed := by intro t h; simp [Elected, blank] at h

/-- A fresh replica owes nothing. -/
theorem Standing.blank (v : ι) : Standing (History.blank ι α) members v 0 [] 0 where
  chained := by intro k e hk; simp at hk
  term_le := by intro e he; cases he
  acked_le := by intro t n h; cases h
  voter_le := by intro t h; simp [History.blank] at h
  backed := by intro t n _ h; cases h
  commit_le := le_rfl
  settled := Or.inl rfl

/-! ## Votes -/

/-- The term of the last entry, `0` for an empty log. -/
def lastTerm (ℓ : List α) : ℕ := (ℓ.getLast?.map term).getD 0

/-- `cand` is at least as up to date as `ℓ`: a later last term, or the same
last term and at least the length. -/
def UpToDate (cand ℓ : List α) : Prop :=
  lastTerm ℓ < lastTerm cand ∨ lastTerm cand = lastTerm ℓ ∧ ℓ.length ≤ cand.length

/-- A nonempty log has a last entry, and `lastTerm` reads its term. -/
theorem exists_last {ℓ : List α} (h : 0 < ℓ.length) :
    ∃ e, ℓ[ℓ.length - 1]? = some e ∧ term e = lastTerm ℓ := by
  refine ⟨ℓ[ℓ.length - 1], List.getElem?_eq_getElem (by omega), ?_⟩
  simp [lastTerm, List.getLast?_eq_getElem?, List.getElem?_eq_getElem
    (show ℓ.length - 1 < ℓ.length by omega)]

/-- Terms never decrease along a chained log. -/
theorem History.Chained.le_lastTerm (hL : L.Sound members) {ℓ : List α} (h : L.Chained ℓ)
    {k : ℕ} {e : α} (hk : ℓ[k]? = some e) : term e ≤ lastTerm ℓ := by
  have hlt : k < ℓ.length := (List.getElem?_eq_some_iff.mp hk).1
  obtain ⟨e', hlast, he'⟩ := exists_last (ℓ := ℓ) (by omega)
  have hpre := (h _ e' hlast).2
  have hlog : (L.log (term e'))[k]? = some e := by
    have hlen : k < (ℓ.take (ℓ.length - 1 + 1)).length := by simp only [List.length_take]; omega
    rw [List.prefix_iff_getElem?.mp hpre k hlen, List.getElem_take,
      ← List.getElem?_eq_getElem hlt, hk]
  exact he' ▸ hL.term_le hlog

/-- A chained log is a prefix of the log of the leader of its last term. -/
theorem History.Chained.prefix_last {ℓ : List α} (h : L.Chained ℓ) :
    ℓ <+: L.log (lastTerm ℓ) := by
  rcases Nat.eq_zero_or_pos ℓ.length with hnil | hpos
  · rw [List.length_eq_zero_iff.mp hnil]
    exact List.nil_prefix
  · obtain ⟨e, hlast, he⟩ := exists_last hpos
    have := (h _ e hlast).2
    rwa [he, List.take_of_length_le (by omega)] at this

/-- **Voting.**  What a voter owes carries over to any chained log at least as
up to date as its own. -/
theorem History.Backed.of_upToDate (hL : L.Sound members) {v : ι} {ℓ cand : List α} {b : ℕ}
    (h : L.Backed v ℓ b) (hℓ : L.Chained ℓ) (hcand : L.Chained cand)
    (hterm : ∀ e ∈ cand, term e ≤ b) (hup : UpToDate cand ℓ) : L.Backed v cand b := by
  intro s n hs ha hown
  rcases h s n hs ha hown with hp | hl
  swap
  · exact Or.inr hl
  obtain ⟨hlen, hn⟩ := hown.length_take
  obtain ⟨k, e, rfl, hk, he⟩ := hown
  have hℓlen := hp.length_le
  have hkℓ : ℓ[k]? = some e := by
    have hlt : k < ((L.log s).take (k + 1)).length := by omega
    rw [List.prefix_iff_getElem?.mp hp k hlt, List.getElem_take,
      ← List.getElem?_eq_getElem (List.getElem?_eq_some_iff.mp hk).1, hk]
  have hsℓ : s ≤ lastTerm ℓ := he ▸ hℓ.le_lastTerm hL hkℓ
  have hle : lastTerm ℓ ≤ lastTerm cand := by rcases hup with h1 | ⟨h1, _⟩ <;> omega
  rcases Nat.lt_or_ge s (lastTerm cand) with hlt | hge
  · -- the candidate's last leader came after `s`: either it had the prefix or lost it
    have hpos : 0 < cand.length := by
      by_contra hnil
      rw [List.length_eq_zero_iff.mp (by omega : cand.length = 0)] at hlt
      simp [lastTerm] at hlt
    obtain ⟨e', hlast, he'⟩ := exists_last hpos
    by_cases hbase : (L.log s).take (k + 1) <+: L.base (lastTerm cand)
    · exact Or.inl (hbase.trans (he' ▸ hL.base_prefix_of_last hcand hlast))
    · refine Or.inr ⟨lastTerm cand, hlt, ?_, ?_, hbase⟩
      · exact he' ▸ hterm e' (List.mem_iff_getElem?.mpr ⟨_, hlast⟩)
      · exact he' ▸ (hcand _ e' hlast).1
  · -- same last term: the longer log of that term's leader contains the shorter
    have hlc : lastTerm cand = lastTerm ℓ := by omega
    have hlen' : ℓ.length ≤ cand.length := by rcases hup with h1 | ⟨_, h2⟩ <;> omega
    exact Or.inl (hp.trans (List.prefix_of_prefix_length_le hℓ.prefix_last
      (hlc ▸ hcand.prefix_last) hlen'))

/-! ## What a log shares with a leader's -/

/-- What `ℓ` shares with the log of term `b`, `ℓ'` shares with it as well. -/
def History.Retains (L : History ι α) (ℓ ℓ' : List α) (b : ℕ) : Prop :=
  ∀ p, p <+: L.log b → p <+: ℓ → p <+: ℓ'

namespace History.Retains

variable {ℓ ℓ' ℓ'' P : List α} {b : ℕ}

omit [Termed α] in
/-- A longer log retains everything. -/
theorem extended (h : ℓ <+: ℓ') : L.Retains ℓ ℓ' b := fun _ _ hp => hp.trans h

omit [Termed α] in
theorem refl (ℓ : List α) (b : ℕ) : L.Retains ℓ ℓ b := extended List.prefix_rfl

omit [Termed α] in
theorem trans (h : L.Retains ℓ ℓ' b) (h' : L.Retains ℓ' ℓ'' b) : L.Retains ℓ ℓ'' b :=
  fun p hp hℓ => h' p hp (h p hp hℓ)

variable [DecidableEq ι]

/-- A part of the log of term `b` is in front of what is vouched for by then, or behind it. -/
theorem comparable (hL : L.Sound members) (hP : L.Vouched members P b) {p : List α}
    (hp : p <+: L.log b) : p <+: P ∨ P <+: p := by
  by_cases hel : L.Elected b
  · exact List.prefix_or_prefix_of_prefix hp (hP.prefix_log hL hel)
  · rw [hL.vacant b hel] at hp
    exact Or.inl (List.prefix_nil.mp hp ▸ List.nil_prefix)

/-- What is vouched for may be put in front of any log. -/
theorem install (hL : L.Sound members) (hP : L.Vouched members P b) :
    L.Retains ℓ (P ++ ℓ.drop P.length) b := by
  intro p hp hpℓ
  rcases comparable hL hP hp with hle | hge
  · exact hle.trans (List.prefix_append _ _)
  · rwa [← List.prefix_append_drop (hge.trans hpℓ)]

/-- A log may be cut where it parts from what is vouched for. -/
theorem cut (hL : L.Sound members) (hP : L.Vouched members P b) {i : ℕ} {e e' : α}
    (he : P[i]? = some e) (he' : ℓ[i]? = some e') (hne : term e' ≠ term e) :
    L.Retains ℓ (ℓ.take i) b := by
  have hpart : ∀ p, p <+: ℓ → p <+: P → p.length ≤ i := fun p =>
    Grafting.length_le_of_parting he he' hne
  intro p hp hpℓ
  rcases comparable hL hP hp with hle | hge
  · exact List.prefix_take_iff.mpr ⟨hpℓ, hpart p hpℓ hle⟩
  · have hlen := hpart P (hge.trans hpℓ) List.prefix_rfl
    have hlt : i < P.length := (List.getElem?_eq_some_iff.mp he).1
    omega

end History.Retains

end Ledger
