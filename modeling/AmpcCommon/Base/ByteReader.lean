import AmpcCommon.Base.Bytes
import AmpcCommon.Base.Stream

/-!
# Reading into a byte buffer

A reader of bytes, and `read_exact` into a part of a buffer.
-/

namespace AmpcCommon

/-- A reader of bytes. -/
abbrev ByteReader := Stream.Reader UInt8 Failure

namespace Bytes

/-- `reader.read_exact(&mut buf[start..stop])` -/
def readInto (buf : Bytes) (start stop : Nat) : ByteReader Bytes := do
  let bytes ← Stream.readExact (stop - start)
  Stream.lift (buf.copyFromSlice start bytes)

theorem reads_readInto {buf bs : Bytes} {start stop : Nat} (hlen : bs.length = stop - start) (hstart : start ≤ stop)
    (hstop : stop ≤ buf.length) :
    Stream.Reads (buf.readInto start stop) bs (buf.take start ++ bs ++ buf.drop stop) := by
  have hcopy : buf.copyFromSlice start bs = .ok (buf.take start ++ bs ++ buf.drop stop) := by
    have hend : start + bs.length = stop := by omega
    unfold Bytes.copyFromSlice
    rw [hend, if_pos hstop]
  unfold readInto
  rw [← List.append_nil bs]
  refine (Stream.reads_readExact hlen).bind ?_
  rw [List.append_nil]
  exact Stream.reads_lift hcopy

/-- The rest of a buffer that ends with zeros to be overwritten. -/
theorem reads_readInto_zeros (buf bs : Bytes) :
    Stream.Reads ((buf ++ List.replicate bs.length 0).readInto buf.length (buf.length + bs.length)) bs
      (buf ++ bs) := by
  have hlen : bs.length = buf.length + bs.length - buf.length := by omega
  have hread := @reads_readInto (buf ++ List.replicate bs.length 0) bs _ _ hlen (Nat.le_add_right _ _) (by simp)
  rw [List.take_left, List.drop_eq_nil_of_le (by simp), List.append_nil] at hread
  exact hread

theorem starves_readInto (buf : Bytes) {start stop : Nat} (h : start < stop) :
    Stream.Starves (buf.readInto start stop) :=
  (Stream.starves_readExact (Nat.sub_pos_of_lt h)).bind _

/-- `buf.resize(n, 0)` -/
def resize (buf : Bytes) (n : Nat) : Bytes := buf.take n ++ List.replicate (n - buf.length) 0

theorem resize_add (buf : Bytes) (n : Nat) : buf.resize (buf.length + n) = buf ++ List.replicate n 0 := by
  unfold resize
  rw [List.take_of_length_le (Nat.le_add_right _ _), Nat.add_sub_cancel_left]

theorem slice_append (pre mid post : Bytes) :
    (pre ++ (mid ++ post)).slice pre.length (pre.length + mid.length) = .ok mid := by
  rw [slice_eq_ok (Nat.le_add_right _ _) (by simp)]
  rw [List.drop_left, Nat.add_sub_cancel_left, List.take_left]

end Bytes

end AmpcCommon
