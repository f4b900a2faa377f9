import TrustNode.Base.TopK
import TrustNode.Mempool.Drain

namespace TrustNode.Mempool

open TopK
open TrustNode.TxProcessor

abbrev Ticket := TxHash × ℕ

def ticket (C : Crypto) (tx : Transaction) : Ticket := (tx.hash C, tx.fee.toNat)

def Slot.ticket (p : Slot) : Ticket := (p.2.hash, p.2.fee.toNat)

namespace Inner

def tickets (inner : Inner) : Finset Ticket := (inner.bySeq.map Slot.ticket).toFinset

variable {C : Crypto} {inner : Inner} {p : Slot}

theorem mem_tickets {t : Ticket} : t ∈ inner.tickets ↔ ∃ p ∈ inner.bySeq, Slot.ticket p = t := by
  rw [tickets, List.mem_toFinset, List.mem_map]

theorem nodup_tickets (hwf : inner.WellFormed C) : (inner.bySeq.map Slot.ticket).Nodup := by
  refine hwf.seqs.of_map.map_on fun p hp q hq heq => ?_
  have hseq := hwf.seq_unique hp hq (Prod.ext_iff.mp heq).1
  exact List.inj_on_of_nodup_map hwf.seqs hp hq hseq

theorem card_tickets (hwf : inner.WellFormed C) : inner.tickets.card = inner.bySeq.length := by
  rw [tickets, List.toFinset_card_of_nodup (nodup_tickets hwf), List.length_map]

theorem tickets_park (inner : Inner) (entry : MempoolEntry) :
    (inner.park entry).tickets = insert (entry.hash, entry.fee.toNat) inner.tickets := by
  rw [tickets, park, List.map_append, List.toFinset_append, Finset.union_comm]
  rfl

theorem tickets_dropSeq (hwf : inner.WellFormed C) (hp : p ∈ inner.bySeq) :
    (inner.dropSeq p.1).tickets = inner.tickets.erase (Slot.ticket p) := by
  obtain ⟨found, inner', hremoved⟩ := removeSeq_of_mem (List.mem_map_of_mem hp)
  have hfound : found = p.2 := hwf.entry_unique (removeSeq_eq_some hremoved).1 hp
  have hperm := (removeSeq_perm hwf hremoved).map Slot.ticket
  have hnodup := List.nodup_cons.mp (hperm.nodup_iff.mp (nodup_tickets hwf))
  rw [dropSeq_of_removeSeq hremoved, tickets, tickets, List.toFinset_eq_of_perm _ _ hperm,
    List.map_cons, List.toFinset_cons, hfound, Finset.erase_insert]
  rw [List.mem_toFinset, ← hfound]
  exact hnodup.1

end Inner

namespace Pool

variable {C : Crypto} {config : MempoolConfig} {pool : Pool} {tx : Transaction} {now : UInt64}

theorem cheapest_eq_none {l : List Slot} (h : cheapest l = none) : l = [] := by
  cases l with
  | nil => rfl
  | cons p rest =>
    rw [cheapest] at h
    cases hrest : cheapest rest with
    | none =>
      rw [hrest] at h
      cases h
    | some q =>
      rw [hrest] at h
      dsimp only at h
      split_ifs at h

theorem cheapest_le {l : List Slot} {p q : Slot} (h : cheapest l = some p) (hq : q ∈ l) :
    p.2.fee ≤ q.2.fee := by
  induction l generalizing p with
  | nil => cases h
  | cons r rest ih =>
    rw [cheapest] at h
    cases hrest : cheapest rest with
    | none =>
      rw [hrest] at h
      obtain rfl := Option.some.inj h
      rw [cheapest_eq_none hrest, List.mem_singleton] at hq
      exact hq ▸ UInt64.le_refl _
    | some s =>
      rw [hrest] at h
      dsimp only at h
      split_ifs at h with hlow
      · obtain rfl := Option.some.inj h
        rcases List.mem_cons.mp hq with rfl | hq
        · exact hlow.elim UInt64.le_of_lt fun htie => htie.1 ▸ UInt64.le_refl _
        · exact ih hrest hq
      · obtain rfl := Option.some.inj h
        rcases List.mem_cons.mp hq with rfl | hq
        · exact UInt64.le_refl _
        · exact UInt64.le_trans (UInt64.not_lt.mp fun hlt => hlow (.inl hlt)) (ih hrest hq)

theorem makeRoom_eq_none (h : pool.makeRoom tx = none) :
    pool.config.maxSize ≤ pool.inner.bySeq.length ∧ ∀ p ∈ pool.inner.bySeq, tx.fee ≤ p.2.fee := by
  rw [makeRoom] at h
  split_ifs at h with hfull
  refine ⟨hfull, fun p hp => ?_⟩
  cases hc : cheapest pool.inner.bySeq with
  | none =>
    rw [cheapest_eq_none hc] at hp
    cases hp
  | some q =>
    rw [hc] at h
    dsimp only at h
    split_ifs at h with hfee
    exact UInt64.le_trans (UInt64.not_lt.mp hfee) (cheapest_le hc hp)

theorem expireLocked_of_fresh (h : pool.stale now = []) : (pool.expireLocked now).2 = pool := by
  rw [expireLocked, h]
  simp

end Pool

def eligible (C : Crypto) (config : MempoolConfig) (tx : Transaction) : Bool :=
  tx.verifySignature C && decide (config.minFee ≤ tx.fee)

abbrev Offer := UInt64 × Transaction

def offered (C : Crypto) (config : MempoolConfig) (offers : List Offer) : Finset Ticket :=
  (((offers.map Prod.snd).filter (eligible C config)).map (ticket C)).toFinset

def OneFee (C : Crypto) (offers : List Offer) : Prop :=
  ∀ a ∈ offers, ∀ b ∈ offers, a.2.hash C = b.2.hash C → a.2.fee = b.2.fee

def offer (C : Crypto) (config : MempoolConfig) (offers : List Offer) : Pool :=
  .after C config (offers.map fun o => .insert o.1 o.2)

def nothingExpires (C : Crypto) : Pool → List Offer → Bool
  | _, [] => true
  | pool, (now, tx) :: rest =>
    (!pool.screened C tx || (pool.stale now).isEmpty) &&
      nothingExpires C (pool.insert C now tx).2 rest

def Pool.fees (pool : Pool) : Multiset ℕ := (pool.inner.bySeq.map fun p => p.2.fee.toNat : List ℕ)

section

variable {C : Crypto} {config : MempoolConfig} {pool : Pool} {tx : Transaction} {now : UInt64}
  {known : Finset Ticket}

theorem map_snd_tickets (hwf : pool.inner.WellFormed C) :
    pool.inner.tickets.val.map Prod.snd = pool.fees := by
  rw [Inner.tickets, List.toFinset_val, (Inner.nodup_tickets hwf).dedup, Multiset.map_coe,
    List.map_map]
  rfl

theorem absent_of_screened (hwf : pool.inner.WellFormed C) (h : pool.screened C tx = true) :
    ticket C tx ∉ pool.inner.tickets := by
  intro hmem
  obtain ⟨p, hp, heq⟩ := Inner.mem_tickets.mp hmem
  have hlinked := (hwf.linked (tx.hash C) p.1).mpr ⟨p.2, hp, (Prod.ext_iff.mp heq).1⟩
  simp [Pool.screened, hlinked] at h

theorem known_of_parked (hsub : pool.inner.tickets ⊆ known)
    (hone : ∀ t ∈ known, t.1 = tx.hash C → t.2 = tx.fee.toNat)
    (hparked : tx.hash C ∈ pool.inner.parked) : ticket C tx ∈ known := by
  obtain ⟨seq, entry, hp, hhash⟩ := Inner.mem_parked.mp hparked
  have hknown : Slot.ticket (seq, entry) ∈ known := hsub (Inner.mem_tickets.mpr ⟨_, hp, rfl⟩)
  have hfee := hone _ hknown hhash
  rwa [show ticket C tx = Slot.ticket (seq, entry) from Prod.ext hhash.symm hfee.symm]

theorem screened_eq (hkept : Pool.Kept C config pool) (tx : Transaction) :
    pool.screened C tx =
      (eligible C config tx && (pool.inner.byHash.lookup (tx.hash C)).isNone) := by
  rw [Pool.screened, hkept.same, eligible]

theorem best_refused (hwf : pool.inner.WellFormed C)
    (hbest : Best Prod.snd pool.config.maxSize known pool.inner.tickets)
    (hroom : pool.makeRoom tx = none) :
    Best Prod.snd pool.config.maxSize (insert (ticket C tx) known) pool.inner.tickets := by
  obtain ⟨hfull, hlow⟩ := Pool.makeRoom_eq_none hroom
  refine hbest.skip (Inner.card_tickets hwf ▸ hfull) fun t ht => ?_
  obtain ⟨p, hp, rfl⟩ := Inner.mem_tickets.mp ht
  exact UInt64.le_iff_toNat_le.mp (hlow p hp)

theorem best_admitted {roomy : Pool} (hwf : pool.inner.WellFormed C)
    (hbest : Best Prod.snd pool.config.maxSize known pool.inner.tickets)
    (habsent : ticket C tx ∉ pool.inner.tickets) (hroom : pool.makeRoom tx = some roomy) :
    Best Prod.snd pool.config.maxSize (insert (ticket C tx) known)
      (insert (ticket C tx) roomy.inner.tickets) := by
  have hcard := Inner.card_tickets hwf
  obtain ⟨hlt, rfl⟩ | ⟨p, hc, hfee, hfull, rfl⟩ := Pool.makeRoom_eq_some hroom
  · exact hbest.add (hcard ▸ hlt)
  · have hp := Pool.cheapest_mem hc
    rw [Inner.tickets_dropSeq hwf hp]
    refine hbest.replace (hcard ▸ hfull) (Inner.mem_tickets.mpr ⟨p, hp, rfl⟩) (fun t ht => ?_)
      (UInt64.lt_iff_toNat_lt.mp hfee) habsent
    obtain ⟨q, hq, rfl⟩ := Inner.mem_tickets.mp ht
    exact UInt64.le_iff_toNat_le.mp (Pool.cheapest_le hc hq)

theorem best_insert (hkept : Pool.Kept C config pool)
    (hbest : Best Prod.snd config.maxSize known pool.inner.tickets)
    (hone : ∀ t ∈ known, t.1 = tx.hash C → t.2 = tx.fee.toNat)
    (hfresh : pool.screened C tx = true → pool.stale now = []) :
    Best Prod.snd config.maxSize
      (if eligible C config tx then insert (ticket C tx) known else known)
      (pool.insert C now tx).2.inner.tickets := by
  have hwf := hkept.wellFormed
  have hscreen := screened_eq hkept tx
  obtain rfl := hkept.same
  obtain ⟨hscreened, e, he⟩ | ⟨hscreened, hcase⟩ := Pool.insert_outcome C pool now tx
  · rw [he]
    split_ifs with heligible
    · rw [hscreen, heligible, Bool.true_and, Option.isNone_eq_false_iff,
        ← hwf.mem_parked_iff] at hscreened
      rw [Finset.insert_eq_of_mem (known_of_parked hbest.subset hone hscreened)]
      exact hbest
    · exact hbest
  · have habsent := absent_of_screened hwf hscreened
    rw [Pool.expireLocked_of_fresh (hfresh hscreened)] at hcase
    rw [hscreen, Bool.and_eq_true] at hscreened
    rw [if_pos hscreened.1]
    obtain ⟨hroom, hfull⟩ | ⟨roomy, hroom, hroomy⟩ := hcase
    · rw [hfull]
      exact best_refused hwf hbest hroom
    · rw [hroomy]
      exact (Inner.tickets_park roomy.inner _).symm ▸ best_admitted hwf hbest habsent hroom

theorem offered_snoc (offers : List Offer) (o : Offer) :
    offered C config (offers ++ [o]) =
      if eligible C config o.2 then insert (ticket C o.2) (offered C config offers)
      else offered C config offers := by
  simp only [offered, List.map_append, List.filter_append, List.toFinset_append, List.map_cons,
    List.map_nil, List.filter_cons, List.filter_nil]
  split_ifs
  · rw [Finset.union_comm]
    rfl
  · simp

theorem offer_eq_foldl (offers : List Offer) :
    offer C config offers = offers.foldl (fun pool o => (pool.insert C o.1 o.2).2) (.new config) := by
  rw [offer, Pool.after, List.foldl_map]
  rfl

theorem offer_snoc (offers : List Offer) (o : Offer) :
    offer C config (offers ++ [o]) = ((offer C config offers).insert C o.1 o.2).2 := by
  rw [offer_eq_foldl, offer_eq_foldl, List.foldl_append]
  rfl

theorem nothingExpires_snoc (offers : List Offer) (o : Offer) :
    nothingExpires C pool (offers ++ [o]) = (nothingExpires C pool offers &&
      (!(offers.foldl (fun pool o => (pool.insert C o.1 o.2).2) pool).screened C o.2 ||
        ((offers.foldl (fun pool o => (pool.insert C o.1 o.2).2) pool).stale o.1).isEmpty)) := by
  induction offers generalizing pool with
  | nil => simp [nothingExpires]
  | cons first rest ih =>
    rw [List.cons_append, nothingExpires, ih, nothingExpires, Bool.and_assoc]
    rfl

theorem fee_of_offered {offers : List Offer} {o : Offer} (hone : OneFee C (offers ++ [o])) :
    ∀ t ∈ offered C config offers, t.1 = o.2.hash C → t.2 = o.2.fee.toNat := by
  intro t ht hhash
  simp only [offered, List.mem_toFinset, List.mem_map, List.mem_filter] at ht
  obtain ⟨tx, ⟨⟨prior, hprior, rfl⟩, -⟩, rfl⟩ := ht
  have hlast : o ∈ offers ++ [o] := List.mem_append_right _ List.mem_cons_self
  exact congrArg UInt64.toNat (hone prior (List.mem_append_left _ hprior) o hlast hhash)

theorem best_offer (offers : List Offer) (hone : OneFee C offers)
    (hfresh : nothingExpires C (.new config) offers = true) :
    Best Prod.snd config.maxSize (offered C config offers)
      (offer C config offers).inner.tickets := by
  induction offers using List.reverseRecOn with
  | nil => exact Best.empty
  | append_singleton offers o ih =>
    rw [nothingExpires_snoc, Bool.and_eq_true, ← offer_eq_foldl] at hfresh
    have hstale : (offer C config offers).screened C o.2 = true →
        (offer C config offers).stale o.1 = [] := fun hscreened => by
      simpa [hscreened] using hfresh.2
    have hprior : OneFee C offers := fun a ha b hb =>
      hone a (List.mem_append_left _ ha) b (List.mem_append_left _ hb)
    rw [offer_snoc, offered_snoc]
    exact best_insert (Pool.kept_after C config _) (ih hprior hfresh.1) (fee_of_offered hone) hstale

end

theorem eviction_keeps_largest_fees (C : Crypto) (config : MempoolConfig) (offers : List Offer)
    (hone : OneFee C offers) (hfresh : nothingExpires C (.new config) offers = true) :
    (offer C config offers).fees =
      largest config.maxSize ((offered C config offers).val.map Prod.snd) := by
  have hkept : Pool.Kept C config (offer C config offers) := Pool.kept_after C config _
  rw [← map_snd_tickets hkept.wellFormed]
  exact (best_offer offers hone hfresh).map_eq_largest

def crowd : List Offer :=
  [(1, 6000), (2, 7000), (1, 6000), (3, 4000), (4, 9000), (1, 6000)].map fun (tag, fee) =>
    (0, Pool.bareTransaction tag fee)

theorem eviction_keeps_largest_of_crowd :
    OneFee acceptingCrypto crowd ∧
      nothingExpires acceptingCrypto (.new ⟨2, 60000, 5000⟩) crowd = true ∧
      (offer acceptingCrypto ⟨2, 60000, 5000⟩ crowd).totalEvicted = 1 ∧
      (offer acceptingCrypto ⟨2, 60000, 5000⟩ crowd).fees =
        largest 2 ((offered acceptingCrypto ⟨2, 60000, 5000⟩ crowd).val.map Prod.snd) := by
  have hone : OneFee acceptingCrypto crowd := by
    unfold OneFee
    decide +kernel
  have hrun : nothingExpires acceptingCrypto (.new ⟨2, 60000, 5000⟩) crowd = true ∧
      (offer acceptingCrypto ⟨2, 60000, 5000⟩ crowd).totalEvicted = 1 := by decide +kernel
  exact ⟨hone, hrun.1, hrun.2, eviction_keeps_largest_fees acceptingCrypto _ crowd hone hrun.1⟩

end TrustNode.Mempool
