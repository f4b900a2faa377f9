import TrustNode.Base.Table
import TrustNode.Base.Word
import TrustNode.TxProcessor.Transaction

namespace TrustNode.Mempool

open Word
open TrustNode.TxProcessor

abbrev TxHash := Bytes32

structure MempoolConfig where
  maxSize : ℕ
  maxAgeMs : UInt64
  minFee : UInt64
deriving DecidableEq

def MempoolConfig.default : MempoolConfig where
  maxSize := 10000
  maxAgeMs := 60000
  minFee := 5000

inductive MempoolError where
  | invalidSignature
  | feeTooLow
  | duplicate
  | full
deriving DecidableEq

def MempoolError.toString : MempoolError → String
  | .invalidSignature => "invalid transaction signature"
  | .feeTooLow => "fee below mempool minimum"
  | .duplicate => "duplicate transaction"
  | .full => "mempool full"

structure MempoolEntry where
  hash : TxHash
  tx : Transaction
  fee : UInt64
  receivedAt : UInt64
deriving DecidableEq

def MempoolEntry.ageMs (entry : MempoolEntry) (now : UInt64) : UInt64 :=
  saturatingSub now entry.receivedAt

-- Sequence numbers are naturals: in u64 one would repeat only after 2^64 insertions.
structure Inner where
  byHash : Table TxHash ℕ
  bySeq : List (ℕ × MempoolEntry)
  nextSeq : ℕ
deriving DecidableEq

namespace Inner

def new : Inner where
  byHash := ∅
  bySeq := []
  nextSeq := 0

def removeSeq (inner : Inner) (seq : ℕ) : Option (MempoolEntry × Inner) :=
  match inner.bySeq.lookup seq with
  | none => none
  | some entry =>
    some (entry,
      { inner with
        byHash := inner.byHash.erase entry.hash
        bySeq := inner.bySeq.filter fun p => p.1 ≠ seq })

def dropSeq (inner : Inner) (seq : ℕ) : Inner := ((inner.removeSeq seq).map Prod.snd).getD inner

def park (inner : Inner) (entry : MempoolEntry) : Inner where
  byHash := inner.byHash.insert entry.hash inner.nextSeq
  bySeq := inner.bySeq ++ [(inner.nextSeq, entry)]
  nextSeq := inner.nextSeq + 1

end Inner

structure Pool where
  inner : Inner
  config : MempoolConfig
  totalAccepted : UInt64
  totalRejected : UInt64
  totalEvicted : UInt64
  totalExpired : UInt64
deriving DecidableEq

namespace Pool

def new (config : MempoolConfig) : Pool where
  inner := .new
  config := config
  totalAccepted := 0
  totalRejected := 0
  totalEvicted := 0
  totalExpired := 0

def defaultPool : Pool := new .default

def reject (pool : Pool) (e : MempoolError) : Except MempoolError TxHash × Pool :=
  (.error e, { pool with totalRejected := pool.totalRejected + 1 })

def stale (pool : Pool) (now : UInt64) : List ℕ :=
  (pool.inner.bySeq.filter fun p => pool.config.maxAgeMs < p.2.ageMs now).map Prod.fst

def expireLocked (pool : Pool) (now : UInt64) : ℕ × Pool :=
  let seqs := pool.stale now
  (seqs.length,
    { pool with
      inner := seqs.foldl Inner.dropSeq pool.inner
      totalExpired := pool.totalExpired + UInt64.ofNat seqs.length })

def expire (pool : Pool) (now : UInt64) : ℕ × Pool := pool.expireLocked now

def cheapest : List (ℕ × MempoolEntry) → Option (ℕ × MempoolEntry)
  | [] => none
  | p :: rest =>
    match cheapest rest with
    | none => some p
    | some q => if q.2.fee < p.2.fee ∨ q.2.fee = p.2.fee ∧ q.1 < p.1 then some q else some p

def makeRoom (pool : Pool) (tx : Transaction) : Option Pool :=
  if pool.config.maxSize ≤ pool.inner.bySeq.length then
    match cheapest pool.inner.bySeq with
    | some (seq, victim) =>
      if victim.fee < tx.fee then
        some { pool with
          inner := pool.inner.dropSeq seq
          totalEvicted := pool.totalEvicted + 1 }
      else none
    | none => none
  else some pool

def accept (pool : Pool) (entry : MempoolEntry) : Pool :=
  { pool with
    inner := pool.inner.park entry
    totalAccepted := pool.totalAccepted + 1 }

def insert (C : Crypto) (now : UInt64) (tx : Transaction) (pool : Pool) :
    Except MempoolError TxHash × Pool :=
  if tx.verifySignature C = false then pool.reject .invalidSignature
  else if tx.fee < pool.config.minFee then pool.reject .feeTooLow
  else if (pool.inner.byHash.lookup (tx.hash C)).isSome then pool.reject .duplicate
  else
    let fresh := (pool.expireLocked now).2
    match fresh.makeRoom tx with
    | none => fresh.reject .full
    | some roomy =>
      (.ok (tx.hash C), roomy.accept
        { hash := tx.hash C, tx := tx, fee := tx.fee, receivedAt := now })

def before (a b : UInt64 × ℕ) : Prop := b.1 < a.1 ∨ a.1 = b.1 ∧ a.2 ≤ b.2

instance (a b : UInt64 × ℕ) : Decidable (before a b) := inferInstanceAs (Decidable (_ ∨ _))

def ordered (pool : Pool) : List (UInt64 × ℕ) :=
  (pool.inner.bySeq.map fun p => (p.2.fee, p.1)).insertionSort before

def takeSeqs (acc : List Transaction × Inner) (seq : ℕ) : List Transaction × Inner :=
  match acc.2.removeSeq seq with
  | some (entry, inner) => (acc.1 ++ [entry.tx], inner)
  | none => acc

def drain (pool : Pool) (limit : ℕ) : List Transaction × Pool :=
  let (out, inner) := ((pool.ordered.take limit).map Prod.snd).foldl takeSeqs ([], pool.inner)
  (out, { pool with inner := inner })

def remove (pool : Pool) (hash : TxHash) : Option Transaction × Pool :=
  match pool.inner.byHash.lookup hash with
  | none => (none, pool)
  | some seq =>
    match pool.inner.removeSeq seq with
    | none => (none, pool)
    | some (entry, inner) => (some entry.tx, { pool with inner := inner })

end Pool

end TrustNode.Mempool
