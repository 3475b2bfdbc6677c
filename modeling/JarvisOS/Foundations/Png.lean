import JarvisOS.Foundations.Digits
import Mathlib.Data.List.Basic

/-!
# Images in chunks

The container of the PNG format: a signature, and chunks that carry their length, a name and a check
sum. Chunks written one after the other are read back (`readChunks_cons`), and so are rows of pixels
that are stored without a filter (`unfilter_rows`). The check sum and the compression are
parameters.
-/

namespace Foundations.Png

/-! ## Numbers -/

/-- Four bytes, the most significant first. -/
def be32 (n : ℕ) : List UInt8 := (fixedDigits 256 4 n).map UInt8.ofNat

/-- The number in a list of bytes. -/
def readBe (bs : List UInt8) : ℕ := readDigits 256 UInt8.toNat bs

@[simp] theorem length_be32 (n : ℕ) : (be32 n).length = 4 := rfl

theorem readBe_be32 {n : ℕ} (h : n < 2 ^ 32) : readBe (be32 n) = n := by
  rw [readBe, be32, readDigits_fixedDigits (by decide) fun d hd => UInt8.toNat_ofNat_of_lt' hd]
  exact Nat.mod_eq_of_lt h

/-! ## Chunks -/

section Chunks

variable (crc : List UInt8 → ℕ)

/-- A chunk. -/
def chunkBytes (tag data : List UInt8) : List UInt8 :=
  be32 data.length ++ (tag ++ data) ++ be32 (crc (tag ++ data))

/-- Read a chunk: its name and its data, and what follows. -/
def readChunk (bs : List UInt8) : Option ((List UInt8 × List UInt8) × List UInt8) :=
  let n := readBe (bs.take 4)
  let body := (bs.drop 4).take (4 + n)
  let rest := bs.drop (8 + n)
  if 12 + n ≤ bs.length ∧ rest.take 4 = be32 (crc body) then
    some ((body.take 4, body.drop 4), rest.drop 4)
  else none

/-- `IEND` -/
def iend : List UInt8 := [73, 69, 78, 68]

/-- Read chunks up to the last. -/
def readChunks : ℕ → List UInt8 → Option (List (List UInt8 × List UInt8))
  | 0, _ => none
  | fuel + 1, bs =>
    (readChunk crc bs).bind fun (c, rest) =>
      if c.1 = iend then some [c] else (readChunks fuel rest).map (c :: ·)

variable {crc} {tag data rest : List UInt8}

/-- **A chunk** is read back. -/
theorem readChunk_chunkBytes (htag : tag.length = 4) (hdata : data.length < 2 ^ 32) :
    readChunk crc (chunkBytes crc tag data ++ rest) = some ((tag, data), rest) := by
  have hlength : readBe ((chunkBytes crc tag data ++ rest).take 4) = data.length := by
    rw [chunkBytes, List.append_assoc, List.append_assoc, List.take_left' (length_be32 _),
      readBe_be32 hdata]
  have hbody : ((chunkBytes crc tag data ++ rest).drop 4).take (4 + data.length) = tag ++ data := by
    rw [chunkBytes, List.append_assoc, List.append_assoc, List.drop_left' (length_be32 _),
      List.take_left' (by rw [List.length_append, htag])]
  have hrest : (chunkBytes crc tag data ++ rest).drop (8 + data.length) = be32
    (crc (tag ++ data)) ++ rest := by
    rw [chunkBytes, List.append_assoc, List.drop_left']
    rw [List.length_append, List.length_append, length_be32, htag, ← Nat.add_assoc]
  have hfit : 12 + data.length ≤ (chunkBytes crc tag data ++ rest).length := by
    simp only [chunkBytes, List.length_append, length_be32, htag]
    omega
  unfold readChunk
  simp only [hlength, hbody, hrest]
  rw [if_pos ⟨hfit, List.take_left' (length_be32 _)⟩, List.take_left' htag, List.drop_left' htag,
    List.drop_left' (length_be32 _)]

/-- **Chunks** are read back one by one. -/
theorem readChunks_cons (htag : tag.length = 4) (hne : tag ≠ iend) (hdata : data.length < 2 ^ 32)
    (fuel : ℕ) :
    readChunks crc (fuel + 1) (chunkBytes crc tag data ++ rest) =
      (readChunks crc fuel rest).map ((tag, data) :: ·) := by
  rw [readChunks, readChunk_chunkBytes htag hdata, Option.bind_some]
  exact if_neg hne

theorem readChunks_iend (fuel : ℕ) :
    readChunks crc (fuel + 1) (chunkBytes crc iend [] ++ rest) = some [(iend, [])] := by
  rw [readChunks, readChunk_chunkBytes rfl (by decide), Option.bind_some]
  exact if_pos rfl

end Chunks

/-! ## Rows -/

/-- Rows of `k` bytes, each after a byte that says it has no filter. -/
def rows (k h : ℕ) (pixels : List UInt8) : List UInt8 :=
  (List.range h).flatMap fun y => 0 :: (pixels.take ((y + 1) * k)).drop (y * k)

/-- Take the rows apart; rows with a filter are left out. -/
def unfilter (k : ℕ) : ℕ → List UInt8 → Option (List UInt8)
  | 0, raw => if raw = [] then some [] else none
  | _ + 1, [] => none
  | h + 1, filter :: raw =>
    if filter = 0 ∧ k ≤ raw.length then (unfilter k h (raw.drop k)).map (raw.take k ++ ·) else none

theorem rows_succ (k h : ℕ) (pixels : List UInt8) :
    rows k (h + 1) pixels = 0 :: (pixels.take k ++ rows k h (pixels.drop k)) := by
  unfold rows
  rw [List.range_succ_eq_map, List.flatMap_cons, List.flatMap_map]
  have hslice : ∀ y, (pixels.take ((y.succ + 1) * k)).drop (y.succ * k) =
      ((pixels.drop k).take ((y + 1) * k)).drop (y * k) := by
    intro y
    have hend : (y.succ + 1) * k = k + (y + 1) * k := by
      rw [Nat.succ_eq_add_one]
      ring
    have hstart : y.succ * k = k + y * k := by
      rw [Nat.succ_eq_add_one]
      ring
    rw [hend, hstart, List.take_drop, List.drop_drop]
  simp only [hslice, Nat.zero_mul, List.drop_zero, Nat.zero_add, Nat.one_mul, List.cons_append]

theorem length_rows (k h : ℕ) (pixels : List UInt8) :
    (rows k h pixels).length = h + min (h * k) pixels.length := by
  induction h generalizing pixels with
  | zero => simp [rows]
  | succ h ih =>
    rw [rows_succ, List.length_cons, List.length_append, ih, List.length_take, List.length_drop,
      Nat.succ_mul]
    omega

/-- Rows come apart only when they are all there. -/
theorem length_of_unfilter {k h : ℕ} {raw pixels : List UInt8}
    (e : unfilter k h raw = some pixels) :
    raw.length = h + h * k := by
  induction h generalizing raw pixels with
  | zero =>
    unfold unfilter at e
    split_ifs at e with hraw
    rw [hraw, Nat.zero_mul]
    rfl
  | succ h ih =>
    cases raw with
    | nil => cases e
    | cons filter raw =>
      unfold unfilter at e
      split_ifs at e with hrow
      obtain ⟨rest, hrest, -⟩ := Option.map_eq_some_iff.1 e
      have hlen := ih hrest
      rw [List.length_drop] at hlen
      rw [List.length_cons, Nat.succ_mul]
      omega

/-- **Rows are taken apart** exactly if there are pixels for all of them. -/
theorem unfilter_rows (k h : ℕ) (pixels : List UInt8) :
    unfilter k h (rows k h pixels) = if h * k ≤ pixels.length then some (pixels.take (h * k)) else
      none := by
  split_ifs with hall
  · induction h generalizing pixels with
    | zero => simp [rows, unfilter]
    | succ h ih =>
      rw [Nat.succ_mul] at hall
      have hrow : (pixels.take k).length = k := List.length_take_of_le (by omega)
      rw [rows_succ, unfilter, List.drop_left' hrow, List.take_left' hrow,
        ih _ (by rw [List.length_drop]; omega), if_pos ⟨rfl, by rw [List.length_append]; omega⟩,
        Option.map_some, Nat.succ_mul, Nat.add_comm, List.take_add]
  · cases e : unfilter k h (rows k h pixels) with
    | none => rfl
    | some out =>
      have hlen := length_of_unfilter e
      rw [length_rows] at hlen
      omega

/-! ## Images -/

/-- The signature. -/
def signature : List UInt8 := [0x89, 80, 78, 71, 13, 10, 26, 10]

/-- `IHDR` -/
def ihdr : List UInt8 := [73, 72, 68, 82]

/-- `IDAT` -/
def idat : List UInt8 := [73, 68, 65, 84]

/-- The header of a true-colour image with 8 bits for each component. -/
def header (w h : ℕ) : List UInt8 := be32 w ++ be32 h ++ [8, 2, 0, 0, 0]

/-- Read a true-colour image with 8 bits for each component and no filters: its width, its height
and its pixels. Sizes are positive and below `2^31`. -/
def decode (crc : List UInt8 → ℕ) (decompress : List UInt8 → Option (List UInt8))
    (png : List UInt8) :
    Option (ℕ × ℕ × List UInt8) :=
  if png.take 8 = signature then
    (readChunks crc png.length (png.drop 8)).bind fun chunks =>
      match chunks with
      | (tag, head) :: chunks =>
        let w := readBe (head.take 4)
        let h := readBe ((head.drop 4).take 4)
        if tag = ihdr ∧ head = header w h ∧ 0 < w ∧ w < 2 ^ 31 ∧ 0 < h ∧ h < 2 ^ 31 then
          (decompress ((chunks.filter fun c => c.1 = idat).flatMap Prod.snd)).bind fun raw =>
            (unfilter (w * 3) h raw).map fun pixels => (w, h, pixels)
        else none
      | [] => none
  else none

/-- The image with these compressed rows. -/
def encode (crc : List UInt8 → ℕ) (w h : ℕ) (data : List UInt8) : List UInt8 :=
  signature ++
    (chunkBytes crc ihdr (header w h) ++ (chunkBytes crc idat data ++ chunkBytes crc iend []))

/-- **An image** is read back if its sizes are allowed and its rows are read back. -/
theorem decode_encode {crc : List UInt8 → ℕ} {decompress : List UInt8 → Option (List UInt8)}
    {w h : ℕ}
    {data : List UInt8} (hw : w < 2 ^ 32) (hh : h < 2 ^ 32) (hdata : data.length < 2 ^ 32) :
    decode crc decompress (encode crc w h data) =
      if 0 < w ∧ w < 2 ^ 31 ∧ 0 < h ∧ h < 2 ^ 31 then
        (decompress data).bind fun raw => (unfilter (w * 3) h raw).map fun pixels => (w, h, pixels)
      else none := by
  have hheader : (header w h).length = 13 := by simp [header]
  have hsignature : signature.length = 8 := rfl
  obtain ⟨fuel, hfuel⟩ : ∃ fuel, (encode crc w h data).length = fuel + 3 := by
    refine ⟨(encode crc w h data).length - 3, ?_⟩
    have hlen : 8 ≤ (encode crc w h data).length := by
      simp only [encode, List.length_append, signature, List.length_cons]
      omega
    omega
  have hchunks : readChunks crc (encode crc w h data).length ((encode crc w h data).drop 8) =
      some [(ihdr, header w h), (idat, data), (iend, [])] := by
    have hend := @readChunks_iend crc [] fuel
    rw [List.append_nil] at hend
    rw [hfuel, encode, List.drop_left' hsignature,
      readChunks_cons rfl (by decide) (by rw [hheader]; decide),
      readChunks_cons rfl (by decide) hdata, hend]
    rfl
  have hwidth : readBe ((header w h).take 4) = w := by
    rw [header, List.append_assoc, List.take_left' (length_be32 w), readBe_be32 hw]
  have hheight : readBe (((header w h).drop 4).take 4) = h := by
    rw [header, List.append_assoc, List.drop_left' (length_be32 w), List.take_left' (length_be32 h),
      readBe_be32 hh]
  have hidat :
      ([(idat, data), (iend, [])].filter fun c : List UInt8 × List UInt8 => c.1 = idat).flatMap
        Prod.snd = data := by
    simp [show iend ≠ idat by decide]
  unfold decode
  rw [if_pos (by rw [encode, List.take_left' hsignature]), hchunks, Option.bind_some]
  simp only [hwidth, hheight, hidat, true_and]

end Foundations.Png
