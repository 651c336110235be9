import IronSafe.PacketCodec

/-! The loops that move a buffer of fixed size over a connection. Each adds the return value of a
call to the offset of the next call, without looking at it. -/
namespace IronSafe.Transfer

inductive Dir
  | recv | send
  deriving DecidableEq

/-- The offset, the number of bytes moved so far, the memory relative to the start of the buffer and
the bytes at the other end of the connection. -/
structure Xfer where
  nbuffer : ℤ
  moved : ℕ
  mem : ℤ → UInt8
  peer : ℕ → UInt8

/-- A call that returns `len`: so many bytes are copied at the offset, and none if it is not
positive. -/
def Xfer.call (dir : Dir) (s : Xfer) (len : ℤ) : Xfer where
  nbuffer := s.nbuffer + len
  moved := s.moved + len.toNat
  mem := match dir with
    | .recv => fun a =>
      if s.nbuffer ≤ a ∧ a < s.nbuffer + len then s.peer (s.moved + (a - s.nbuffer).toNat)
      else s.mem a
    | .send => s.mem
  peer := match dir with
    | .recv => s.peer
    | .send => fun i =>
      if s.moved ≤ i ∧ i < s.moved + len.toNat then s.mem (s.nbuffer + (i - s.moved : ℕ))
      else s.peer i

section Loop

variable (size : ℕ) (dir : Dir) (mem : ℤ → UInt8) (peer : ℕ → UInt8) (rets : ℕ → ℤ)

/-- The loop after `n` rounds; once its condition fails it stays as it is. -/
def iterate : ℕ → Xfer
  | 0 => ⟨0,0,mem,peer⟩
  | n+1 => if (iterate n).nbuffer < size then (iterate n).call dir (rets n) else iterate n

/-- What the calls may return: a part of the bytes that were asked for, 0 or -1. -/
def Admissible : Prop := ∀ n, (iterate size dir mem peer rets n).nbuffer < size →
  rets n = -1 ∨ rets n = 0 ∨
  (1 ≤ rets n ∧ rets n ≤ size - (iterate size dir mem peer rets n).nbuffer)

inductive Exit
  | complete | failed
  deriving DecidableEq

/-- The condition of the loop is its only exit. -/
def exit (s : Xfer) : Option Exit := if s.nbuffer < size then none else some .complete

/-- The whole buffer is the same at both ends. -/
def Complete (s : Xfer) : Prop := s.moved = size ∧ ∀ j < size, s.mem j = s.peer j

structure Correct : Prop where
  offset : ∀ n, 0 ≤ (iterate size dir mem peer rets n).nbuffer ∧
    (iterate size dir mem peer rets n).nbuffer ≤ size ∧
    (iterate size dir mem peer rets n).nbuffer = (iterate size dir mem peer rets n).moved
  ends : ∃ n, let s := iterate size dir mem peer rets n
    (exit size s = some .complete ∧ Complete size s) ∨
      (exit size s = some .failed ∧ ∃ m < n, rets m ≤ 0)

end Loop

/-- The offset is the number of bytes moved, and these are the same at both ends. -/
structure Good (size : ℕ) (s : Xfer) : Prop where
  moved : s.nbuffer = s.moved
  bound : s.nbuffer ≤ size
  same : ∀ j < s.moved, s.mem j = s.peer j

/-- A call that does not fail keeps the bytes in order. -/
lemma Good.call {size : ℕ} {s : Xfer} (h : Good size s) (dir : Dir) {len : ℤ} (hlen : 0 ≤ len)
    (hle : len ≤ size - s.nbuffer) : Good size (s.call dir len) := by
  have hmoved := h.moved
  refine ⟨?_, ?_, ?_⟩
  · simp only [Xfer.call]
    omega
  · simp only [Xfer.call]
    omega
  · intro j hj
    simp only [Xfer.call] at hj ⊢
    cases dir with
    | recv =>
      dsimp only
      split_ifs with hin
      · congr 1
        omega
      · exact h.same j (by omega)
    | send =>
      dsimp only
      split_ifs with hin
      · congr 1
        omega
      · exact h.same j (by omega)

section Rounds

variable {size : ℕ} {dir : Dir} {mem : ℤ → UInt8} {peer : ℕ → UInt8} {rets : ℕ → ℤ}

lemma iterate_running {n : ℕ} (h : (iterate size dir mem peer rets n).nbuffer < size) :
    iterate size dir mem peer rets (n+1) =
      (iterate size dir mem peer rets n).call dir (rets n) := by
  rw [iterate, if_pos h]

lemma iterate_done {n : ℕ} (h : ¬ (iterate size dir mem peer rets n).nbuffer < size) :
    iterate size dir mem peer rets (n+1) = iterate size dir mem peer rets n := by
  rw [iterate, if_neg h]

/-- As long as no call fails the loop is good. -/
lemma good_iterate (hadm : Admissible size dir mem peer rets) {n : ℕ} (hnn : ∀ i < n, 0 ≤ rets i) :
    Good size (iterate size dir mem peer rets n) := by
  induction n with
  | zero => exact ⟨rfl, by simp [iterate], by simp [iterate]⟩
  | succ n ih =>
    have hgood := ih fun i hi => hnn i (by omega)
    by_cases hrun : (iterate size dir mem peer rets n).nbuffer < size
    · rw [iterate_running hrun]
      have hret := hnn n (by omega)
      rcases hadm n hrun with h | h | ⟨-, h⟩
      · omega
      · exact hgood.call dir hret (by omega)
      · exact hgood.call dir hret h
    · rw [iterate_done hrun]
      exact hgood

/-- While the loop runs, the offset is the sum of the return values. -/
lemma nbuffer_iterate {n : ℕ} (hrun : ∀ i < n, (iterate size dir mem peer rets i).nbuffer < size) :
    (iterate size dir mem peer rets n).nbuffer = ∑ i ∈ Finset.range n, rets i := by
  induction n with
  | zero => simp [iterate]
  | succ n ih =>
    rw [iterate_running (hrun n (by omega)), Finset.sum_range_succ,
      ← ih fun i hi => hrun i (by omega)]
    rfl

lemma iterate_stays {n : ℕ} (h : ¬ (iterate size dir mem peer rets n).nbuffer < size) (k : ℕ) :
    iterate size dir mem peer rets (n+k) = iterate size dir mem peer rets n := by
  induction k with
  | zero => rfl
  | succ k ih => rw [← Nat.add_assoc, iterate_done (by rw [ih]; exact h), ih]

lemma Good.complete {s : Xfer} (h : Good size s) (hdone : ¬ s.nbuffer < size) :
    Complete size s := by
  have hmoved := h.moved
  have hbound := h.bound
  have hsize : s.moved = size := by omega
  exact ⟨hsize, fun j hj => h.same j (by omega)⟩

/-- Return values that are not negative and add up to the size end the loop. -/
lemma correct_of_sum (hadm : Admissible size dir mem peer rets) {k : ℕ} (hnn : ∀ i < k, 0 ≤ rets i)
    (hsum : ∑ i ∈ Finset.range k, rets i = size) : Correct size dir mem peer rets := by
  obtain ⟨n, hn, hdone⟩ : ∃ n ≤ k, ¬ (iterate size dir mem peer rets n).nbuffer < size := by
    by_contra hnone
    have hrun : ∀ i ≤ k, (iterate size dir mem peer rets i).nbuffer < size := fun i hi =>
      by_contra fun h => hnone ⟨i, hi, h⟩
    have hk := hrun k le_rfl
    rw [nbuffer_iterate fun i hi => hrun i (Nat.le_of_lt hi)] at hk
    omega
  have hgood : ∀ i ≤ n, Good size (iterate size dir mem peer rets i) := fun i hi =>
    good_iterate hadm fun j hj => hnn j (by omega)
  refine ⟨fun i => ?_, n, .inl ⟨if_neg hdone, (hgood n le_rfl).complete hdone⟩⟩
  have hi : Good size (iterate size dir mem peer rets i) := by
    by_cases hin : i ≤ n
    · exact hgood i hin
    · obtain ⟨d, rfl⟩ : ∃ d, i = n+d := ⟨i-n, by omega⟩
      rw [iterate_stays hdone]
      exact hgood n le_rfl
  have hmoved := hi.moved
  exact ⟨by omega, hi.bound, hmoved⟩

/-- A call that fails moves the offset away from the number of bytes moved. -/
lemma Correct.ret_nonneg (h : Correct size dir mem peer rets)
    (hadm : Admissible size dir mem peer rets) {n : ℕ}
    (hrun : (iterate size dir mem peer rets n).nbuffer < size) : 0 ≤ rets n := by
  have hnow := (h.offset n).2.2
  have hnext := (h.offset (n+1)).2.2
  rw [iterate_running hrun] at hnext
  simp only [Xfer.call] at hnext
  rcases hadm n hrun with hret | hret | hret <;> omega

lemma Correct.sum (h : Correct size dir mem peer rets) (hadm : Admissible size dir mem peer rets) :
    ∃ k, (∀ i < k, 0 ≤ rets i) ∧ ∑ i ∈ Finset.range k, rets i = size := by
  have hdone : ∃ n, ¬ (iterate size dir mem peer rets n).nbuffer < size := by
    obtain ⟨n, ⟨hexit, -⟩ | ⟨hexit, -⟩⟩ := h.ends
    all_goals
      refine ⟨n, fun hrun => ?_⟩
      rw [exit, if_pos hrun] at hexit
      cases hexit
  classical
  have hrun : ∀ i < Nat.find hdone, (iterate size dir mem peer rets i).nbuffer < size := fun i hi =>
    not_not.mp (Nat.find_min hdone hi)
  refine ⟨Nat.find hdone, fun i hi => h.ret_nonneg hadm (hrun i hi), ?_⟩
  have hend := Nat.find_spec hdone
  have hbound := (h.offset (Nat.find hdone)).2.1
  rw [← nbuffer_iterate hrun]
  omega

end Rounds

/-- The loops of the two servers: `tcp_data` of the host, `batch_pkt`, `subquery` and
`schema_send_ser` of the storage side. -/
inductive Buffer
  | tcpData | batchPkt | subquery | schemaSendSer
  deriving DecidableEq

def Buffer.size : Buffer → ℕ
  | .tcpData | .batchPkt => Packet.recvBufSize
  | .subquery | .schemaSendSer => 4096

def Buffer.dir : Buffer → Dir
  | .tcpData | .subquery => .recv
  | .batchPkt | .schemaSendSer => .send

/-- A transfer loop is correct if and only if no call fails before the buffer is full and the
connection moves the whole buffer. -/
theorem transfer_correct_iff (b : Buffer) (mem : ℤ → UInt8) (peer : ℕ → UInt8) (rets : ℕ → ℤ)
    (hadm : Admissible b.size b.dir mem peer rets) : Correct b.size b.dir mem peer rets ↔
      ∃ k, (∀ i < k, 0 ≤ rets i) ∧ ∑ i ∈ Finset.range k, rets i = b.size :=
  ⟨fun h => h.sum hadm, fun ⟨_, hnn, hsum⟩ => correct_of_sum hadm hnn hsum⟩

/-- A subquery that arrives in two parts. -/
theorem transfer_correct_two :
    Correct Buffer.subquery.size .recv (fun _ => 0) (fun _ => 65)
      (fun n => if n = 0 then 1000 else 3096) := by
  refine (transfer_correct_iff .subquery _ _ _ fun n hrun => .inr (.inr ?_)).mpr ⟨2, ?_, ?_⟩
  · match n with
    | 0 => exact ⟨by norm_num, by simp [Buffer.size, iterate]⟩
    | 1 => exact ⟨by norm_num, by simp [Buffer.size, iterate, Xfer.call]⟩
    | d+2 =>
      have hdone : ¬ (iterate 4096 .recv (fun _ => 0) (fun _ => 65)
          (fun n => if n = 0 then 1000 else 3096) 2).nbuffer < (4096 : ℕ) := by
        simp [iterate, Xfer.call]
      refine absurd hrun ?_
      rw [Nat.add_comm d 2]
      simp only [Buffer.size, Buffer.dir, iterate_stays hdone]
      exact hdone
  · intro i _
    split_ifs <;> norm_num
  · simp [Finset.sum_range_succ, Buffer.size]

/-- A failed call moves the offset in front of the buffer. Once the connection is closed the loop
goes round for ever. -/
theorem transfer_fails :
    (iterate 4096 .recv (fun _ => 0) (fun _ => 65) (fun _ => -1) 1).nbuffer = -1 ∧
      ¬ Correct 4096 .recv (fun _ => 0) (fun _ => 65) (fun _ => -1) ∧
      (∀ n, exit 4096 (iterate 4096 .recv (fun _ => 0) (fun _ => 65) (fun _ => 0) n) = none) ∧
      ¬ Correct 4096 .recv (fun _ => 0) (fun _ => 65) (fun _ => 0) := by
  have hneg : (iterate 4096 .recv (fun _ => 0) (fun _ => 65) (fun _ => -1) 1).nbuffer = -1 := by
    simp [iterate, Xfer.call]
  have hzero : ∀ n, (iterate 4096 .recv (fun _ => 0) (fun _ => 65) (fun _ => 0) n).nbuffer = 0 := by
    intro n
    induction n with
    | zero => rfl
    | succ n ih => simp [iterate, ih, Xfer.call]
  have hexit : ∀ n, exit 4096 (iterate 4096 .recv (fun _ => 0) (fun _ => 65) (fun _ => 0) n) =
      none := fun n =>
    if_pos (by rw [hzero n]; norm_num)
  refine ⟨hneg, fun h => ?_, hexit, fun h => ?_⟩
  · have := (h.offset 1).1
    omega
  · obtain ⟨n, ⟨h', -⟩ | ⟨h', -⟩⟩ := h.ends
    all_goals
      rw [hexit] at h'
      cases h'

end IronSafe.Transfer
