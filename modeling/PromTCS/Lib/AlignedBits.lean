import PromTCS.Lib.BitString

/-!
# Bits and aligned bytes

A stream in which single bits and whole bytes alternate: a bit goes to the next
position, and bytes start at the next multiple of eight, with zeros in between. A
stream is written as a list of tokens on top of the bits that are already there, so
that the padding in front of a byte follows from the bits before it.
-/

namespace AlignedBits

open List

open BitString

inductive Token where
  | bit (b : Bool)
  | bytes (l : List (BitVec 8))

variable (bs : List Bool)

def pad : List Bool :=
  bs ++ List.replicate ((8 - bs.length % 8) % 8) false

def write : Token → List Bool
  | .bit b => bs ++ [b]
  | .bytes l => pad bs ++ ofBytes l

def writeAll (ts : List Token) : List Bool :=
  ts.foldl write bs

theorem length_pad : (pad bs).length = 8 * ((bs.length + 7) / 8) := by
  rw [pad, length_append, length_replicate]
  omega

theorem pad_eq_self {bs : List Bool} (h : bs.length % 8 = 0) : pad bs = bs := by
  rw [pad, h, replicate_zero, append_nil]

theorem prefix_pad : bs <+: pad bs :=
  prefix_append bs _

theorem prefix_write (t : Token) : bs <+: write bs t := by
  cases t with
  | bit b => exact prefix_append bs _
  | bytes l => exact (prefix_pad bs).trans (prefix_append _ _)

@[simp] theorem writeAll_nil : writeAll bs [] = bs := rfl

@[simp] theorem writeAll_cons (t : Token) (ts : List Token) :
    writeAll bs (t :: ts) = writeAll (write bs t) ts := rfl

theorem writeAll_append (ts us : List Token) :
    writeAll bs (ts ++ us) = writeAll (writeAll bs ts) us :=
  foldl_append

theorem prefix_writeAll (ts : List Token) : bs <+: writeAll bs ts := by
  induction ts generalizing bs with
  | nil => exact prefix_rfl
  | cons t ts ih => exact (prefix_write bs t).trans (ih (write bs t))

theorem writeAll_map_bit (bs cs : List Bool) : writeAll bs (cs.map .bit) = bs ++ cs := by
  induction cs generalizing bs with
  | nil => exact (append_nil bs).symm
  | cons c cs ih => rw [map_cons, writeAll_cons, ih, write, append_assoc,
      singleton_append]

end AlignedBits
