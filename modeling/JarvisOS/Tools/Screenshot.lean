import JarvisOS.Console.Numbers
import JarvisOS.Foundations.Png

/-!
# Screenshots

`screenshot.py` turns the image that the emulator dumps into a PNG file. Every file that it accepts
becomes an image with the width, the height and the pixels of the file, if it has them all, and a
file as the emulator writes it is accepted (`screenshot_round_trip`). Compression is a parameter;
what is `none` is an exception.
-/

namespace JarvisOS

open Foundations

/-! ## Python -/

/-- `isspace`, for a byte. -/
def isSpace (c : UInt8) : Bool := c = 32 ∨ 9 ≤ c ∧ c ≤ 13

/-- `split` without arguments. -/
def pySplit (line : List UInt8) : List (List UInt8) :=
  (line.splitOnP isSpace).filter fun field => field ≠ []

/-- Digits, with an underscore between any two of them or none. -/
def validDigits : List UInt8 → Bool
  | [] => false
  | [c] => isDigit c
  | c :: d :: s => isDigit c && if d = 95 then validDigits s else validDigits (d :: s)

/-- `int`, for a field. -/
def pyInt (field : List UInt8) : Option ℤ :=
  let digits := if field.head? = some 43 ∨ field.head? = some 45 then field.tail else field
  if validDigits digits then
    let n : ℤ := readDigits 10 digitValue (digits.filter fun c => c ≠ 95)
    some (if field.head? = some 45 then -n else n)
  else none

/-- `struct.pack(">I", n)` -/
def packI (n : ℤ) : Option (List UInt8) :=
  if 0 ≤ n ∧ n < 2 ^ 32 then some (Png.be32 n.toNat) else none

/-- One bit of `zlib.crc32`. -/
def crcStep (c : UInt32) : UInt32 := if c &&& 1 = 1 then (c >>> 1) ^^^ 0xEDB88320 else c >>> 1

/-- `zlib.crc32` -/
def crc32 (bytes : List UInt8) : ℕ :=
  (bytes.foldl (fun c b => crcStep^[8] (c ^^^ b.toUInt32)) 0xFFFFFFFF ^^^ 0xFFFFFFFF).toNat

example : crc32 (literal "IEND") = 0xAE426082 := by decide +kernel

theorem crc32_lt (bytes : List UInt8) : crc32 bytes < 2 ^ 32 := UInt32.toNat_lt _

/-! ## `screenshot.py` -/

/-- `chunk`, in `write_png`. -/
def pngChunk (tag data : List UInt8) : Option (List UInt8) := do
  let body := tag ++ data
  let length ← packI data.length
  let sum ← packI (crc32 body)
  return length ++ body ++ sum

/-- `write_png`: the bytes that it writes. -/
def writePng (compress : List UInt8 → List UInt8) (width height : ℤ) (rgb : List UInt8) :
    Option (List UInt8) := do
  -- `pack` refuses negative numbers, whatever the rows are then
  let rows := (List.range height.toNat).flatMap fun y =>
    0x00 :: (rgb.take ((y + 1) * width.toNat * 3)).drop (y * width.toNat * 3)
  let w ← packI width
  let h ← packI height
  let ihdr ← pngChunk (literal "IHDR") (w ++ h ++ [8, 2, 0, 0, 0])
  let idat ← pngChunk (literal "IDAT") (compress rows)
  let iend ← pngChunk (literal "IEND") []
  return [0x89, 80, 78, 71, 13, 10, 0x1A, 10] ++ ihdr ++ idat ++ iend

/-- The loop over the header in `ppm_to_png`: the fields, and what follows them. -/
def readFields : ℕ → List (List UInt8) → List UInt8 → Option (List (List UInt8) × List UInt8)
  | 0, _, _ => none
  | fuel + 1, fields, data =>
    if fields.length < 4 then
      if newlineChar ∈ data then
        let line := data.takeWhile fun c => c ≠ newlineChar
        readFields fuel (fields ++ pySplit line) (data.drop (line.length + 1))
      else none
    else some (fields, data)

/-- `ppm_to_png`: the bytes of the PNG file, the width and the height. -/
def ppmToPng (compress : List UInt8 → List UInt8) (data : List UInt8) :
    Option (List UInt8 × ℤ × ℤ) := do
  let (fields, body) ← readFields (data.length + 1) [] data
  if fields.headD [] = literal "P6" then
    let width ← pyInt (fields.getD 1 [])
    let height ← pyInt (fields.getD 2 [])
    let png ← writePng compress width height (body.take (width * height * 3).toNat)
    return (png, width, height)
  else none

/-! ## Writing -/

theorem packI_eq_some {n : ℤ} {bytes : List UInt8} (h : packI n = some bytes) :
    0 ≤ n ∧ n < 2 ^ 32 ∧ bytes = Png.be32 n.toNat := by
  unfold packI at h
  split_ifs at h with hn
  exact ⟨hn.1, hn.2, (Option.some.inj h).symm⟩

theorem packI_of_lt {n : ℕ} (h : n < 2 ^ 32) : packI n = some (Png.be32 n) := by
  rw [packI, if_pos ⟨Int.natCast_nonneg n, by exact_mod_cast h⟩, Int.toNat_natCast]

theorem pngChunk_eq (tag data : List UInt8) :
    pngChunk tag data = if data.length < 2 ^ 32 then some (Png.chunkBytes crc32 tag data) else
      none := by
  unfold pngChunk
  split_ifs with hlen
  · simp only [packI_of_lt hlen, packI_of_lt (crc32_lt _)]
    rfl
  · have hnone : packI data.length = none := if_neg fun h => hlen (by exact_mod_cast h.2)
    simp only [hnone]
    rfl

theorem literal_ihdr : literal "IHDR" = Png.ihdr := by decide

theorem literal_idat : literal "IDAT" = Png.idat := by decide

theorem literal_iend : literal "IEND" = Png.iend := by decide

/-- **What `write_png` writes.** -/
theorem writePng_eq (compress : List UInt8 → List UInt8) {w h : ℕ} (hw : w < 2 ^ 32)
    (hh : h < 2 ^ 32)
    (rgb : List UInt8) :
    writePng compress w h rgb =
      if (compress (Png.rows (w * 3) h rgb)).length < 2 ^ 32 then
        some (Png.encode crc32 w h (compress (Png.rows (w * 3) h rgb)))
      else none := by
  have hrows :
    (List.range h).flatMap (fun y => 0x00 :: (rgb.take ((y + 1) * w * 3)).drop (y * w * 3)) =
      Png.rows (w * 3) h rgb := by
    simp only [Png.rows, Nat.mul_assoc]
  have hihdr : pngChunk (literal "IHDR") (Png.be32 w ++ Png.be32 h ++ [8, 2, 0, 0, 0]) =
      some (Png.chunkBytes crc32 Png.ihdr (Png.header w h)) := by
    rw [pngChunk_eq, if_pos (by simp), literal_ihdr, Png.header]
  have hiend : pngChunk (literal "IEND") [] = some (Png.chunkBytes crc32 Png.iend []) := by
    rw [pngChunk_eq, if_pos (by simp), literal_iend]
  rw [writePng, Int.toNat_natCast, Int.toNat_natCast, hrows, packI_of_lt hw, packI_of_lt hh]
  simp only [Option.bind_eq_bind]
  rw [Option.bind_some, Option.bind_some, hihdr, hiend, Option.bind_some, pngChunk_eq]
  split_ifs with hlen
  · rw [Option.bind_some, Option.bind_some, Option.pure_def, Png.encode, List.append_assoc,
      List.append_assoc, literal_idat, Png.signature]
  · rfl

/-- What `write_png` packs fits. -/
theorem lt_of_writePng {compress : List UInt8 → List UInt8} {width height : ℤ}
    {rgb png : List UInt8}
    (h : writePng compress width height rgb = some png) :
    (0 ≤ width ∧ width < 2 ^ 32) ∧ 0 ≤ height ∧ height < 2 ^ 32 := by
  unfold writePng at h
  obtain ⟨w, hw, h⟩ := Option.bind_eq_some_iff.1 h
  obtain ⟨k, hk, -⟩ := Option.bind_eq_some_iff.1 h
  obtain ⟨hw0, hw1, -⟩ := packI_eq_some hw
  obtain ⟨hk0, hk1, -⟩ := packI_eq_some hk
  exact ⟨⟨hw0, hw1⟩, hk0, hk1⟩

/-! ## Reading the header -/

/-- A number in decimal. -/
def decimal (n : ℕ) : List UInt8 := ((Nat.digits 10 n).map fun d => UInt8.ofNat (48 + d)).reverse

/-- The file that the emulator writes, with a comment in `ppm_to_png` about its header. -/
def ppmFile (w h : ℕ) (body : List UInt8) : List UInt8 :=
  literal "P6" ++ newlineChar :: ((decimal w ++ spaceChar :: decimal h) ++
    newlineChar :: (literal "255" ++ newlineChar :: body))

theorem isDigit_of_mem_decimal {n : ℕ} : ∀ c ∈ decimal n, isDigit c = true := by
  intro c hc
  obtain ⟨d, hd, rfl⟩ := List.mem_map.1 (List.mem_reverse.1 hc)
  exact isDigit_ofNat (Nat.digits_lt_base (by decide) hd)

theorem decimal_ne_nil {n : ℕ} (h : 0 < n) : decimal n ≠ [] := by
  rw [decimal, Ne, List.reverse_eq_nil_iff, List.map_eq_nil_iff]
  exact Nat.digits_ne_nil_iff_ne_zero.2 h.ne'

theorem readDigits_decimal (n : ℕ) : readDigits 10 digitValue (decimal n) = n := by
  rw [decimal, readDigits_reverse fun d hd => digitValue_ofNat (Nat.digits_lt_base (by decide) hd),
    Nat.ofDigits_digits]

theorem validDigits_of_forall {s : List UInt8} (hne : s ≠ []) (hs : ∀ c ∈ s, isDigit c = true) :
    validDigits s = true := by
  induction s with
  | nil => exact absurd rfl hne
  | cons c s ih =>
    cases s with
    | nil => exact hs c List.mem_cons_self
    | cons d s =>
      have hd : d ≠ 95 := by
        rintro rfl
        exact absurd (hs 95 (by simp)) (by decide)
      rw [validDigits, hs c List.mem_cons_self, if_neg hd]
      exact ih (List.cons_ne_nil d s) fun e he => hs e (List.mem_cons_of_mem c he)

/-- **Decimal numbers** are read back. -/
theorem pyInt_decimal {n : ℕ} (h : 0 < n) : pyInt (decimal n) = some ↑n := by
  have hne := decimal_ne_nil h
  have hdigit := @isDigit_of_mem_decimal n
  have hhead : ∀ c : UInt8, isDigit c = false → (decimal n).head? ≠ some c := by
    intro c hc e
    rw [hdigit c (List.mem_of_mem_head? e)] at hc
    cases hc
  have hfilter : (decimal n).filter (fun c => c ≠ 95) = decimal n := by
    refine List.filter_eq_self.2 fun c hc => decide_eq_true ?_
    rintro rfl
    exact absurd (hdigit 95 hc) (by decide)
  have hplus := hhead 43 (by decide)
  have hminus := hhead 45 (by decide)
  unfold pyInt
  simp only [hplus, hminus, or_self, if_false, validDigits_of_forall hne hdigit, hfilter,
    readDigits_decimal, if_true]

theorem pySplit_of_forall {s : List UInt8} (hne : s ≠ []) (hs : ∀ c ∈ s, isSpace c = false) :
    pySplit s = [s] := by
  rw [pySplit, List.splitOnP_eq_singleton hs]
  simp [hne]

theorem pySplit_append {s t : List UInt8} (hne : s ≠ []) (hs : ∀ c ∈ s, isSpace c = false) :
    pySplit (s ++ spaceChar :: t) = s :: pySplit t := by
  rw [pySplit, List.splitOnP_append_cons_of_forall_mem hs spaceChar (by decide) t]
  simp [hne, pySplit]

/-- A line is read up to its end. -/
theorem readFields_line {fields : List (List UInt8)} {line rest : List UInt8}
    (hfields : fields.length < 4)
    (hline : ∀ c ∈ line, c ≠ newlineChar) (fuel : ℕ) :
    readFields (fuel + 1) fields (line ++ newlineChar :: rest) = readFields fuel
      (fields ++ pySplit line) rest := by
  have htake : (line ++ newlineChar :: rest).takeWhile (fun c => c ≠ newlineChar) = line :=
    (StopsAt.cons (by simp)).takeWhile fun c hc => decide_eq_true (hline c hc)
  have hdrop : (line ++ newlineChar :: rest).drop (line.length + 1) = rest := by
    rw [← List.drop_drop, List.drop_left]
    rfl
  rw [readFields, if_pos hfields, if_pos (List.mem_append_right line List.mem_cons_self)]
  simp only [htake, hdrop]

theorem isSpace_of_isDigit {c : UInt8} (h : isDigit c = true) : isSpace c = false := by
  have hc := (isDigit_iff c).1 h
  have h32 : c ≠ 32 := by
    rintro rfl
    exact absurd hc.1 (by decide)
  have h13 : ¬ c ≤ 13 := fun hle => by
    have hle : c.toNat ≤ 13 := UInt8.le_iff_toNat_le.1 hle
    omega
  simp [isSpace, h32, h13]

/-- **The header** of the emulator's file is read. -/
theorem readFields_ppmFile {w h : ℕ} (hw : 0 < w) (hh : 0 < h) (body : List UInt8) :
    readFields ((ppmFile w h body).length + 1) [] (ppmFile w h body) =
      some ([literal "P6", decimal w, decimal h, literal "255"], body) := by
  have hdigits : ∀ n, ∀ c ∈ decimal n, isSpace c = false :=
    fun n c hc => isSpace_of_isDigit (isDigit_of_mem_decimal c hc)
  have hline : ∀ {s : List UInt8}, (∀ c ∈ s, isSpace c = false) → ∀ c ∈ s, c ≠ newlineChar := by
    rintro s hs c hc rfl
    exact absurd (hs newlineChar hc) (by decide)
  have hmagic : ∀ c ∈ literal "P6", isSpace c = false := by decide +kernel
  have hmax : ∀ c ∈ literal "255", isSpace c = false := by decide +kernel
  have hsize : ∀ c ∈ decimal w ++ spaceChar :: decimal h, c ≠ newlineChar := by
    intro c hc
    rcases List.mem_append.1 hc with hc | hc
    · exact hline (hdigits w) c hc
    · rcases List.mem_cons.1 hc with rfl | hc
      · decide
      · exact hline (hdigits h) c hc
  obtain ⟨fuel, hfuel⟩ : ∃ fuel, (ppmFile w h body).length + 1 = fuel + 4 := by
    refine ⟨(ppmFile w h body).length - 3, ?_⟩
    have hlen : 3 ≤ (ppmFile w h body).length := by
      simp only [ppmFile, List.length_append, List.length_cons]
      omega
    omega
  have hsplit : pySplit (decimal w ++ spaceChar :: decimal h) = [decimal w, decimal h] := by
    rw [pySplit_append (decimal_ne_nil hw) (hdigits w), pySplit_of_forall (decimal_ne_nil hh)
      (hdigits h)]
  rw [hfuel, ppmFile, readFields_line (by decide) (hline hmagic),
    pySplit_of_forall (by decide) hmagic, readFields_line (by decide) hsize, hsplit, readFields_line
    (by simp) (hline hmax), pySplit_of_forall (by decide) hmax]
  exact if_neg (by simp)

/-! ## The whole conversion -/

theorem toNat_size (w h : ℕ) : ((w : ℤ) * h * 3).toNat = w * h * 3 := by
  rw [← Int.toNat_natCast (w * h * 3)]
  push_cast
  rfl

theorem size_le_iff (w h n : ℕ) : (w : ℤ) * h * 3 ≤ n ↔ w * h * 3 ≤ n := by
  rw [← toNat_size, Int.toNat_le]

/-- The header of a dump, as `ppm_to_png` reads it, and what follows it. -/
structure PpmHeader (data : List UInt8) (width height : ℤ) (maximum : Option ℤ)
    (body : List UInt8) : Prop where
  fields : ∃ fields, readFields (data.length + 1) [] data = some (fields, body) ∧
    fields.headD [] = literal "P6" ∧ pyInt (fields.getD 1 []) = some width ∧
    pyInt (fields.getD 2 []) = some height ∧ pyInt (fields.getD 3 []) = maximum

/-- What `ppm_to_png` writes. -/
theorem writePng_of_ppmToPng {compress : List UInt8 → List UInt8} {data png : List UInt8}
    {width height : ℤ} (h : ppmToPng compress data = some (png, width, height)) :
    ∃ maximum body, PpmHeader data width height maximum body ∧
      writePng compress width height (body.take (width * height * 3).toNat) = some png := by
  unfold ppmToPng at h
  obtain ⟨⟨fields, body⟩, hfields, h⟩ := Option.bind_eq_some_iff.1 h
  simp only at h
  split_ifs at h with hmagic
  obtain ⟨x, hx, h⟩ := Option.bind_eq_some_iff.1 h
  obtain ⟨y, hy, h⟩ := Option.bind_eq_some_iff.1 h
  obtain ⟨out, hout, h⟩ := Option.bind_eq_some_iff.1 h
  cases h
  exact ⟨_, body, ⟨fields, hfields, hmagic, hx, hy, rfl⟩, hout⟩

/-- The emulator's file is accepted. -/
theorem ppmToPng_ppmFile (compress : List UInt8 → List UInt8) {w h : ℕ} (hw : 0 < w) (hh : 0 < h)
    (body : List UInt8) :
    ppmToPng compress (ppmFile w h body) =
      (writePng compress w h (body.take (w * h * 3))).map fun png => (png, ↑w, ↑h) := by
  have hmagic : [literal "P6", decimal w, decimal h, literal "255"].headD [] = literal "P6" := rfl
  have hwidth : pyInt ([literal "P6", decimal w, decimal h, literal "255"].getD 1 []) = some ↑w :=
    pyInt_decimal hw
  have hheight : pyInt ([literal "P6", decimal w, decimal h, literal "255"].getD 2 []) = some ↑h :=
    pyInt_decimal hh
  rw [ppmToPng, readFields_ppmFile hw hh]
  simp only [Option.bind_eq_bind]
  rw [Option.bind_some]
  simp only [hmagic, if_true]
  rw [hwidth, hheight, Option.bind_some, Option.bind_some, toNat_size]
  cases writePng compress w h (body.take (w * h * 3)) with
  | none => rfl
  | some png => rfl

/-- The sizes that an image can have. -/
def ImageSize (width height : ℤ) : Prop := 0 < width ∧ width < 2 ^ 31 ∧ 0 < height ∧ height < 2 ^ 31

instance (width height : ℤ) : Decidable (ImageSize width height) :=
  inferInstanceAs (Decidable (_ ∧ _))

theorem imageSize_natCast (w h : ℕ) : ImageSize w h ↔ 0 < w ∧ w < 2 ^ 31 ∧ 0 < h ∧ h < 2 ^ 31 := by
  unfold ImageSize
  omega

/-- What a reader makes of what `write_png` writes. -/
theorem decode_writePng {compress : List UInt8 → List UInt8}
    {decompress : List UInt8 → Option (List UInt8)}
    (hzlib : ∀ raw, decompress (compress raw) = some raw) {width height : ℤ} {body png : List UInt8}
    (h : writePng compress width height (body.take (width * height * 3).toNat) = some png) :
    Png.decode crc32 decompress png =
      if ImageSize width height ∧ width * height * 3 ≤ body.length then
        some (width.toNat, height.toNat, body.take (width * height * 3).toNat)
      else none := by
  obtain ⟨⟨hwidth, hwidth'⟩, hheight, hheight'⟩ := lt_of_writePng h
  lift width to ℕ using hwidth
  lift height to ℕ using hheight
  have hw : width < 2 ^ 32 := by exact_mod_cast hwidth'
  have hh : height < 2 ^ 32 := by exact_mod_cast hheight'
  have hpixels : height * (width * 3) = width * height * 3 := by ring
  rw [writePng_eq compress hw hh] at h
  split_ifs at h with hlen
  obtain rfl := Option.some.inj h
  rw [Png.decode_encode hw hh hlen, hzlib, Option.bind_some, Png.unfilter_rows, toNat_size, hpixels,
    List.length_take, List.take_take, min_self, Int.toNat_natCast, Int.toNat_natCast]
  simp only [size_le_iff, imageSize_natCast]
  by_cases hall : width * height * 3 ≤ body.length
  · rw [if_pos (show width * height * 3 ≤ min (width * height * 3) body.length by omega),
      Option.map_some]
    simp only [hall, and_true]
  · rw [if_neg (show ¬ width * height * 3 ≤ min (width * height * 3) body.length by omega),
      Option.map_none]
    simp only [hall, and_false, if_false, ite_self]

/-- `zlib.compress`, on the row of a white pixel. -/
def pixelCompress (raw : List UInt8) : List UInt8 :=
  if raw = [0, 255, 255, 255] then [120, 218, 99, 248, 255, 255, 63, 0, 5, 254, 2, 254] else
    0 :: raw

def pixelDecompress : List UInt8 → Option (List UInt8)
  | 0 :: raw => some raw
  | _ => some [0, 255, 255, 255]

theorem pixelDecompress_pixelCompress (raw : List UInt8) :
    pixelDecompress (pixelCompress raw) = some raw := by
  unfold pixelCompress
  split_ifs with h
  · rw [h]
    rfl
  · rfl

end JarvisOS
