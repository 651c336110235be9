import Mathlib

/-! A ring with one producer and one consumer. Its two counters are 64-bit words that only
grow, and a counter is masked to find its slot. Next to slots and counters a ring keeps its
history, which no operation reads: the values published so far and how many of them have been
consumed. -/
namespace IronSafe

structure Ring (α : Type*) where
  slots : ℕ → α
  head : ℕ
  tail : ℕ
  log : List α
  taken : ℕ

namespace Ring

variable {α : Type*} (k : ℕ) (r : Ring α)

def create (slots : ℕ → α) : Ring α := ⟨slots, 0, 0, [], 0⟩

/-- The slot of a counter in a ring of `2^k` slots. -/
def slot (i : ℕ) : ℕ := i &&& (2^k-1)

def isEmpty : Bool := r.head == r.tail

def isFull : Bool := r.tail == (r.head + 2^k) % 2^64

def front : α := r.slots (slot k r.head)

def back : α := r.slots (slot k r.tail)

def store (x : α) : Ring α := { r with slots := Function.update r.slots (slot k r.tail) x }

/-- The producer advances its counter. -/
def publish : Ring α := { r with tail := (r.tail+1) % 2^64, log := r.log ++ [r.back k] }

/-- The consumer advances its counter. -/
def consume : Ring α := { r with head := (r.head+1) % 2^64, taken := r.taken+1 }

/-- The number of values that have not been consumed. -/
def backlog : ℕ := r.log.length - r.taken

/-- The producer finds a free slot. -/
def Room : Prop := r.log.length < r.taken + 2^k

/-- The counters follow the history, and every value that has not been consumed is still in
its slot. -/
structure Wf : Prop where
  head_eq : r.head = r.taken % 2^64
  tail_eq : r.tail = r.log.length % 2^64
  taken_le : r.taken ≤ r.log.length
  room : r.log.length ≤ r.taken + 2^k
  held : ∀ i, r.taken ≤ i → ∀ h : i < r.log.length, r.slots (i % 2^k) = r.log[i]

variable {k r}

lemma wf_create (slots : ℕ → α) : (create slots).Wf k :=
  ⟨rfl, rfl, le_rfl, Nat.zero_le _, fun i _ h => absurd h (Nat.not_lt_zero i)⟩

@[simp] lemma store_log (x : α) : (r.store k x).log = r.log := rfl

@[simp] lemma store_taken (x : α) : (r.store k x).taken = r.taken := rfl

@[simp] lemma publish_log : (r.publish k).log = r.log ++ [r.back k] := rfl

@[simp] lemma publish_taken : (r.publish k).taken = r.taken := rfl

@[simp] lemma consume_log : r.consume.log = r.log := rfl

@[simp] lemma consume_taken : r.consume.taken = r.taken+1 := rfl

@[simp] lemma back_store (x : α) : (r.store k x).back k = x := Function.update_self _ _ _

lemma slot_mod (hk : k < 64) (n : ℕ) : slot k (n % 2^64) = n % 2^k := by
  rw [slot, Nat.and_two_pow_sub_one_eq_mod]
  exact Nat.mod_mod_of_dvd _ (Nat.pow_dvd_pow 2 hk.le)

lemma pow_lt (hk : k < 64) : 2^k < 2^64 := Nat.pow_lt_pow_right (by omega) hk

/-- The counters are equal exactly when everything has been consumed, also after they
wrapped around. -/
lemma Wf.isEmpty_iff (h : r.Wf k) (hk : k < 64) : r.isEmpty = true ↔ r.taken = r.log.length := by
  have hp := pow_lt hk
  have h1 := h.taken_le
  have h2 := h.room
  rw [isEmpty, beq_iff_eq, h.head_eq, h.tail_eq]
  omega

lemma Wf.isFull_iff (h : r.Wf k) (hk : k < 64) :
    r.isFull k = true ↔ r.log.length = r.taken + 2^k := by
  have hp := pow_lt hk
  have h1 := h.taken_le
  have h2 := h.room
  rw [isFull, beq_iff_eq, h.head_eq, h.tail_eq]
  omega

lemma Wf.room_of_not_full (h : r.Wf k) (hk : k < 64) (hf : r.isFull k = false) :
    r.Room k := by
  have hne : ¬ r.log.length = r.taken + 2^k := by rw [← h.isFull_iff hk, hf]; simp
  have hroom := h.room
  unfold Room
  omega

lemma Wf.lt_of_not_empty (h : r.Wf k) (hk : k < 64) (he : r.isEmpty = false) :
    r.taken < r.log.length := by
  have hne : ¬ r.taken = r.log.length := by rw [← h.isEmpty_iff hk, he]; simp
  have hle := h.taken_le
  omega

lemma Wf.not_full_of_empty (h : r.Wf k) (hk : k < 64) (he : r.isEmpty = true) :
    r.isFull k = false := by
  have hlen := (h.isEmpty_iff hk).mp he
  have hpos : 0 < 2^k := Nat.two_pow_pos k
  rw [← Bool.not_eq_true, h.isFull_iff hk]
  omega

/-- Two positions less than a revolution apart have different slots. -/
lemma slot_ne {i n : ℕ} (hi : i < n) (hn : n < i + 2^k) : i % 2^k ≠ n % 2^k := by
  intro h
  have hdvd : 2^k ∣ n - i := (Nat.modEq_iff_dvd' hi.le).mp h
  have hle := Nat.le_of_dvd (by omega) hdvd
  omega

/-- Writing into a ring that is not full touches no value that is still to be consumed. -/
lemma Wf.store (h : r.Wf k) (hk : k < 64) (hroom : r.Room k) (x : α) :
    (r.store k x).Wf k := by
  unfold Room at hroom
  refine ⟨h.head_eq, h.tail_eq, h.taken_le, h.room, fun i hi hlt => ?_⟩
  have hne : i % 2^k ≠ slot k r.tail := by
    rw [h.tail_eq, slot_mod hk]
    exact slot_ne hlt (by simp only [store_taken] at hi; omega)
  rw [store_log] at hlt
  simp only [Ring.store]
  rw [Function.update_of_ne hne]
  exact h.held i hi hlt

lemma Wf.publish (h : r.Wf k) (hk : k < 64) (hroom : r.Room k) :
    (r.publish k).Wf k := by
  unfold Room at hroom
  refine ⟨h.head_eq, ?_, ?_, ?_, fun i hi hlt => ?_⟩
  · simp only [Ring.publish, h.tail_eq, List.length_append, List.length_singleton]
    omega
  · have hle := h.taken_le
    simp only [publish_taken, publish_log, List.length_append, List.length_singleton]
    omega
  · simp only [publish_taken, publish_log, List.length_append, List.length_singleton]
    omega
  · simp only [publish_log, List.length_append, List.length_singleton] at hlt
    simp only [publish_log]
    rcases Nat.lt_or_ge i r.log.length with hold | hnew
    · rw [List.getElem_append_left hold]
      exact h.held i hi hold
    · obtain rfl : i = r.log.length := by omega
      rw [List.getElem_concat_length rfl, back, h.tail_eq, slot_mod hk]
      rfl

/-- The consumer reads the oldest value that it has not consumed. -/
lemma Wf.front (h : r.Wf k) (hk : k < 64) (hlt : r.taken < r.log.length) :
    r.log[r.taken]? = some (r.front k) := by
  rw [List.getElem?_eq_getElem hlt, ← h.held r.taken le_rfl hlt, Ring.front, h.head_eq, slot_mod hk]

lemma Wf.consume (h : r.Wf k) (hlt : r.taken < r.log.length) : r.consume.Wf k := by
  have hroom := h.room
  refine ⟨?_, h.tail_eq, hlt, ?_, fun i hi hl => h.held i ?_ hl⟩
  · simp only [Ring.consume, h.head_eq]
    omega
  · simp only [consume_log, consume_taken]
    omega
  · simp only [consume_taken] at hi
    omega

lemma backlog_consume (hlt : r.taken < r.log.length) : r.consume.backlog < r.backlog := by
  unfold backlog
  simp only [consume_log, consume_taken]
  omega

lemma Room.consume (h : r.Room k) : r.consume.Room k := by
  unfold Room at h ⊢
  simp only [consume_log, consume_taken]
  omega

end Ring

end IronSafe
