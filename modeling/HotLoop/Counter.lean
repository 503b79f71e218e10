import HotLoop.Table

/-!
# Hit counters

Failures of guards are counted in a table of `2 ^ bits` slots. A 32-bit hash picks a slot by its
leading bits. New guards get hashes of one slot after another, so that they count apart until the
table has gone round; slots that have never counted are not stored.
-/

namespace HotLoop

structure Counter where
  bits : Nat
  counts : Table Nat Nat := .empty
  nextHash : UInt32 := 0
  deriving Repr, Inhabited

namespace Counter

/-- A table with `2 ^ bits` slots, `bits` brought into the range from 1 to 24. -/
def ofBits (bits : Nat) : Counter := { bits := max 1 (min bits 24) }

def size (c : Counter) : Nat := 1 <<< c.bits

/-- The distance of the hashes of neighbouring slots. -/
def step (c : Counter) : UInt32 := UInt32.ofNat (1 <<< (32 - c.bits))

def slot (c : Counter) (hash : UInt32) : Nat := hash.toNat >>> (32 - c.bits)

def fetch (c : Counter) : UInt32 × Counter :=
  (c.nextHash, { c with nextHash := c.nextHash + c.step })

def count (c : Counter) (hash : UInt32) : Nat := (c.counts.get? (c.slot hash)).getD 0

/-- The table with another count for the slot of a hash; a count of zero is not stored. -/
def setCount (c : Counter) (hash : UInt32) (n : Nat) : Counter :=
  { c with counts :=
      if n = 0 then c.counts.erase (c.slot hash) else c.counts.insert (c.slot hash) n }

/-- Counts one hit. At the threshold the slot starts again from zero and the answer is `true`. -/
def tick (c : Counter) (hash : UInt32) (threshold : Nat) : Bool × Counter :=
  let n := min (c.count hash + 1) 0xffffffff
  if max threshold 1 ≤ n then (true, c.setCount hash 0) else (false, c.setCount hash n)

def reset (c : Counter) (hash : UInt32) : Counter := c.setCount hash 0

theorem count_setCount (c : Counter) (hash hash' : UInt32) (n : Nat) :
    (c.setCount hash n).count hash' =
      if c.slot hash' = c.slot hash then n else c.count hash' := by
  have hs : (c.setCount hash n).slot hash' = c.slot hash' := rfl
  unfold count
  rw [hs]
  unfold setCount
  split
  · rw [Table.get?_erase]; split <;> simp_all
  · rw [Table.get?_insert]; split <;> simp

end Counter

end HotLoop
