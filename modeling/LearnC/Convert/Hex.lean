import LearnC.Machine.Nibbles

/-! `conv_str_hex.c`: a string of hexadecimal digits and the bytes it denotes, the last
digit lowest. -/

namespace LearnC.Convert

/-- The loop of `flip_string`; the upper index is given by the place behind it. -/
def flipLoop (m : Image) (str i : Nat) : Nat → Image
  | 0 => m
  | j + 1 =>
    if i ≤ j then
      let c := m (str + i)
      let m' := m.write (str + i) [m (str + j)]
      flipLoop (m'.write (str + j) [c]) str (i + 1) j
    else m

def flipString (m : Image) (str n : Nat) : Image := flipLoop m str 0 (m.strlen str n)

/-- `BYTE_IN_STR`. -/
def byteInStr (m : Image) (n : Nat) : Nat := (m.strlen 0 n + 1) / 2

/-- One round of the loop of `convert_str_to_hex`. `strtol` is given the address of `c_tmp`
and reads on into what lies `after` it, up to a zero byte. -/
def packDigit (after : Nat → List UInt8) (str outbuf : Image) (i : Nat) : Image :=
  let v := UInt8.ofNat (strtol 16 (str i :: after i) % 16).toNat
  if i % 2 = 0 then outbuf.write (i / 2) [v]
  else outbuf.write (i / 2) [outbuf (i / 2) ||| v <<< 4]

def packLoop (after : Nat → List UInt8) (str outbuf : Image) : Nat → Image
  | 0 => outbuf
  | i + 1 => packDigit after str (packLoop after str outbuf i) i

/-- The buffers have `size` bytes; `str` is filled with zeros first. -/
def convertStrToHex (size : Nat) (after : Nat → List UInt8) (instr outbuf : Image) : Image :=
  let str : Image := fun _ => 0
  let str := str.fill 0 (instr.strlen 0 size) instr
  let str := flipString str 0 size
  packLoop after str outbuf (str.strlen 0 size)

/-- A `char` as the `int` it is promoted to. -/
def charInt (b : UInt8) : Int := if b.toNat < 128 then b.toNat else b.toNat - 256

/-- `%1x` for a number below 16. -/
def hexChar (v : Int) : UInt8 := UInt8.ofNat (if v < 10 then 48 + v.toNat else 87 + v.toNat)

/-- The loop of `convert_hex_to_str`; each `sprintf` ends its digit with a zero byte. -/
def unpackLoop (inbuf outstr : Image) : Nat → Image
  | 0 => outstr
  | i + 1 =>
    let outstr := unpackLoop inbuf outstr i
    let outstr := outstr.write (i * 2) [hexChar (charInt (inbuf i) % 16), 0]
    outstr.write (i * 2 + 1) [hexChar ((charInt (inbuf i) >>> (4 : Nat)) % 16), 0]

def convertHexToStr (size : Nat) (inbuf outstr : Image) (cnt : Nat) : Image :=
  flipString (unpackLoop inbuf outstr cnt) 0 size

variable {m instr inbuf outbuf outstr str : Image} {n size off i j k : Nat} {l s bytes : List UInt8}
  {b : UInt8}

/-! ## `flip_string` -/

theorem flipLoop_done (le : j ≤ i) : flipLoop m off i j = m := by
  cases j with
  | zero => rfl
  | succ j => exact if_neg (by omega)

theorem flipLoop_step (le : i ≤ j) : flipLoop m off i (j + 1) =
    flipLoop ((m.write (off + i) [m (off + j)]).write (off + j) [m (off + i)]) off (i + 1) j :=
  if_pos le

/-- The loop turns what stands between its two indices round. -/
theorem flipLoop_holds (h : m.Holds (off + i) l) :
    (flipLoop m off i (i + l.length)).Holds (off + i) l.reverse ∧
      ∀ k, k < off + i ∨ off + i + l.length ≤ k → flipLoop m off i (i + l.length) k = m k := by
  induction l using List.bidirectionalRec generalizing m i with
  | nil =>
    rw [List.length_nil, Nat.add_zero, flipLoop_done (Nat.le_refl i)]
    exact ⟨trivial, fun _ _ => rfl⟩
  | singleton x =>
    rw [List.length_singleton, flipLoop_step (Nat.le_refl i), flipLoop_done (Nat.le_succ i)]
    constructor
    · rw [h.1]
      exact Image.holds_write
    · intro k out
      rw [Image.write_out (by simpa using out), Image.write_out (by simpa using out)]
  | cons_append x l y ih =>
    have ends : (x :: (l ++ [y])).length = l.length + 2 := by simp
    rw [Image.holds_cons, Image.holds_append] at h
    obtain ⟨first, inner, last, _⟩ := h
    rw [ends, ← Nat.add_assoc, flipLoop_step (by omega)]
    have turned : off + (i + l.length + 1) = off + i + 1 + l.length := by omega
    rw [turned, first, last]
    -- The two ends have changed places, and what is between them is still to be turned.
    have inner' : ((m.write (off + i) [y]).write (off + i + 1 + l.length) [x]).Holds
        (off + (i + 1)) l := by
      rw [← Nat.add_assoc]
      apply inner.congr
      intro k le lt
      rw [Image.write_out (Or.inl lt), Image.write_out (Or.inr le)]
    obtain ⟨flipped, kept⟩ := ih inner'
    have stop : i + l.length + 1 = i + 1 + l.length := by omega
    rw [stop]
    constructor
    · rw [List.reverse_cons, List.reverse_append, List.reverse_singleton, List.singleton_append,
        List.cons_append, Image.holds_cons, Image.holds_append, List.length_reverse]
      refine ⟨?_, flipped, ?_, trivial⟩
      · rw [kept _ (by omega), Image.write_out (by omega)]
        exact (Image.holds_write (l := [y])).1
      · rw [kept _ (by omega)]
        exact (Image.holds_write (l := [x])).1
    · intro k out
      rw [kept _ (by omega), Image.write_out (by simp; omega), Image.write_out (by simp; omega)]

theorem flipString_str (h : m.Str off l) (lt : l.length < n) :
    (flipString m off n).Str off l.reverse := by
  have bytes := Image.holds_append.mp h.bytes
  obtain ⟨flipped, kept⟩ := flipLoop_holds (m := m) (i := 0) bytes.1
  simp only [Nat.zero_add, Nat.add_zero] at flipped kept
  rw [flipString, h.strlen lt]
  refine ⟨Image.holds_append.mpr ⟨flipped, ?_, trivial⟩, ?_⟩
  · rw [List.length_reverse, kept _ (Or.inr (Nat.le_refl _))]
    exact h.at_end
  · rw [List.mem_reverse]
    exact h.text

/-! ## The two loops -/

theorem hexChar_low : hexChar (charInt b % 16) = hexDigit (low b) :=
  byte_forall (P := fun b => hexChar (charInt b % 16) = hexDigit (low b)) (by decide +kernel) b

/-- The shift of a negative `char` brings ones in from above, which are masked. -/
theorem hexChar_high : hexChar ((charInt b >>> (4 : Nat)) % 16) = hexDigit (high b) :=
  byte_forall (P := fun b => hexChar ((charInt b >>> (4 : Nat)) % 16) = hexDigit (high b))
    (by decide +kernel) b

theorem or_shift {lo hi : Fin 16} : byteOf lo 0 ||| byteOf hi 0 <<< 4 = byteOf lo hi := by
  revert lo hi
  decide

/-- The digits that the rounds of the loop read. -/
def nibblesRead (after : Nat → List UInt8) (s : List UInt8) : List (Fin 16) :=
  s.mapIdx fun i b => nibbleOf (strtol 16 (b :: after i))

theorem nibblesRead_length {after : Nat → List UInt8} : (nibblesRead after s).length = s.length :=
  List.length_mapIdx

theorem nibblesRead_getElem {after : Nat → List UInt8} (lt : i < s.length)
    (lt' : i < (nibblesRead after s).length) :
    (nibblesRead after s)[i] = nibbleOf (strtol 16 (s[i] :: after i)) := List.getElem_mapIdx

theorem nibblesRead_nil (hex : ∀ b ∈ s, IsHex b) :
    nibblesRead (fun _ => []) s = s.map hexValue := by
  apply List.ext_getElem (by rw [nibblesRead_length, List.length_map])
  intro i lt' _
  have lt : i < s.length := nibblesRead_length ▸ lt'
  rw [nibblesRead_getElem lt, List.getElem_map, strtol_digit (hex _ (List.getElem_mem lt))]
  have := (hexValue s[i]).isLt
  apply Fin.ext
  simp only [nibbleOf, Fin.ofNat]
  omega

theorem digit_value (v : Int) : UInt8.ofNat (v % 16).toNat = byteOf (nibbleOf v) 0 := by
  rw [byteOf]
  congr 1
  simp only [nibbleOf, Fin.ofNat, Fin.val_zero]
  omega

/-- After `n` rounds the buffer holds the first `n` digits, packed. -/
theorem packLoop_holds {after : Nat → List UInt8} (h : str.Holds 0 s) (le : n ≤ s.length) :
    (packLoop after str outbuf n).Holds 0 (pack ((nibblesRead after s).take n)) := by
  induction n with
  | zero => exact trivial
  | succ n ih =>
    have before := ih (Nat.le_of_succ_le le)
    have digit : str n = s[n] := by simpa using Image.holds_iff.mp h n le
    have lt : n < (nibblesRead after s).length := nibblesRead_length ▸ le
    have read : (nibblesRead after s)[n] = nibbleOf (strtol 16 (s[n] :: after n)) :=
      nibblesRead_getElem le lt
    have length : ((nibblesRead after s).take n).length = n := by
      rw [List.length_take]
      omega
    have places := pack_length (l := (nibblesRead after s).take n)
    rw [length] at places
    rw [packLoop, packDigit, digit, digit_value, ← read, List.take_succ_eq_append_getElem lt]
    generalize (nibblesRead after s).take n = l at before length places
    generalize packLoop after str outbuf n = out at before
    generalize (nibblesRead after s)[n] = a
    split
    case isTrue even =>
      have place : (pack l).length = n / 2 := by omega
      rw [pack_append (by omega), Image.holds_append, Nat.zero_add, place]
      exact ⟨before.congr fun i _ hi => Image.write_out (Or.inl (by omega)), Image.holds_write⟩
    case isFalse odd =>
      obtain ⟨front, y, rfl⟩ := (List.eq_nil_or_concat' l).resolve_left (by
        rintro rfl
        simp at length
        omega)
      rw [List.length_append, List.length_singleton] at length
      have even : front.length % 2 = 0 := by omega
      have place : (pack front).length = n / 2 := by
        rw [pack_length]
        omega
      rw [pack_append even, Image.holds_append, Nat.zero_add, place] at before
      have low_digit : out (n / 2) = byteOf y 0 := before.2.1
      rw [List.append_assoc, List.singleton_append, pack_append even, Image.holds_append,
        Nat.zero_add, place]
      refine ⟨before.1.congr fun i _ hi => Image.write_out (Or.inl (by omega)), ?_⟩
      rw [low_digit, or_shift]
      exact Image.holds_write

/-- After `n` rounds the string has the digits of the first `n` bytes, and a zero byte
behind them. -/
theorem unpackLoop_holds (h : inbuf.Holds 0 bytes) (le : n ≤ bytes.length) :
    (unpackLoop inbuf outstr n).Holds 0 ((unpack (bytes.take n)).map hexDigit) ∧
      (n ≠ 0 → unpackLoop inbuf outstr n (2 * n) = 0) := by
  induction n with
  | zero => exact ⟨trivial, fun ne => absurd rfl ne⟩
  | succ n ih =>
    have before := (ih (Nat.le_of_succ_le le)).1
    have byte : inbuf n = bytes[n] := by simpa using Image.holds_iff.mp h n le
    have length : ((unpack (bytes.take n)).map hexDigit).length = n * 2 := by
      rw [List.length_map, unpack_length, List.length_take]
      omega
    have split : unpack (bytes.take (n + 1)) =
        unpack (bytes.take n) ++ [low bytes[n], high bytes[n]] := by
      rw [List.take_succ_eq_append_getElem le, unpack, List.flatMap_append]
      rfl
    rw [unpackLoop, hexChar_low, hexChar_high, byte, split, List.map_append]
    generalize (unpack (bytes.take n)).map hexDigit = l at before length
    generalize unpackLoop inbuf outstr n = out at before
    have second : ((out.write (n * 2) [hexDigit (low bytes[n]), 0]).write (n * 2 + 1)
        [hexDigit (high bytes[n]), 0]).Holds (n * 2 + 1) [hexDigit (high bytes[n]), 0] :=
      Image.holds_write
    have first : (out.write (n * 2) [hexDigit (low bytes[n]), 0]) (n * 2) =
        hexDigit (low bytes[n]) :=
      (Image.holds_write (l := [hexDigit (low bytes[n]), 0])).1
    constructor
    · rw [Image.holds_append, Nat.zero_add, length]
      refine ⟨before.congr fun i _ hi => ?_, ?_, second.1, trivial⟩
      · rw [Image.write_out (Or.inl (by omega)), Image.write_out (Or.inl (by omega))]
      · rw [Image.write_out (Or.inl (Nat.lt_succ_self _)), first]
    · intro _
      have place : 2 * (n + 1) = n * 2 + 1 + 1 := by omega
      rw [place]
      exact second.2.1

/-! ## There and back -/

/-- The string in the zeros of `str`. -/
theorem copied_str (h : instr.Str 0 s) : (Image.fill (fun _ => 0) 0 s.length instr).Str 0 s := by
  refine ⟨Image.holds_append.mpr ⟨?_, ?_, trivial⟩, h.text⟩
  · apply (Image.holds_append.mp h.bytes).1.congr
    intro i _ hi
    rw [Image.fill_in (Nat.zero_le i) hi, Nat.sub_zero]
  · exact Image.fill_out (Or.inr (Nat.le_refl _))

/-- What the rounds read of the string, the last digit first, in the bytes. -/
theorem convertStrToHex_nibbles {after : Nat → List UInt8} (h : instr.Str 0 s)
    (fits : s.length < size) :
    (convertStrToHex size after instr outbuf).Holds 0 (pack (nibblesRead after s.reverse)) := by
  have flipped := flipString_str (copied_str h) fits
  have length : s.reverse.length = s.length := List.length_reverse
  unfold convertStrToHex
  rw [h.strlen fits]
  simp only
  rw [flipped.strlen (by omega)]
  conv_rhs => rw [← List.take_length (l := nibblesRead after s.reverse), nibblesRead_length]
  exact packLoop_holds (Image.holds_append.mp flipped.bytes).1 (Nat.le_refl s.reverse.length)

/-- The digits of the string, the last one first, in the bytes. -/
theorem convertStrToHex_holds (h : instr.Str 0 s) (hex : ∀ b ∈ s, IsHex b)
    (fits : s.length < size) :
    (convertStrToHex size (fun _ => []) instr outbuf).Holds 0 (pack (s.reverse.map hexValue)) := by
  rw [← nibblesRead_nil fun b mem => hex b (List.mem_reverse.mp mem)]
  exact convertStrToHex_nibbles h fits

/-- The digits of the bytes before they are turned round. -/
theorem unpackLoop_str (h : inbuf.Holds 0 bytes) (some : bytes ≠ []) :
    (unpackLoop inbuf outstr bytes.length).Str 0 ((unpack bytes).map hexDigit) := by
  obtain ⟨digits, ends⟩ : (unpackLoop inbuf outstr bytes.length).Holds 0
      ((unpack (bytes.take bytes.length)).map hexDigit) ∧
        (bytes.length ≠ 0 → unpackLoop inbuf outstr bytes.length (2 * bytes.length) = 0) :=
    unpackLoop_holds h (Nat.le_refl bytes.length)
  rw [List.take_length] at digits
  have length : ((unpack bytes).map hexDigit).length = 2 * bytes.length := by
    rw [List.length_map, unpack_length]
  constructor
  · rw [Image.holds_append, length, Nat.zero_add]
    exact ⟨digits, ends (mt List.length_eq_zero_iff.mp some), trivial⟩
  · intro mem
    obtain ⟨v, _, zero⟩ := List.mem_map.mp mem
    exact hexDigit_ne zero

/-- The digits of the bytes, those of the last one first. -/
theorem convertHexToStr_str (h : inbuf.Holds 0 bytes) (some : bytes ≠ [])
    (fits : 2 * bytes.length < size) :
    (convertHexToStr size inbuf outstr bytes.length).Str 0
      ((unpack bytes).map hexDigit).reverse := by
  apply flipString_str (unpackLoop_str h some)
  rw [List.length_map, unpack_length]
  exact fits

/-- The digits of what the digits of a string were packed into. -/
theorem unpack_pack_digits (hex : ∀ b ∈ s, IsHex b) :
    ((unpack (pack (s.reverse.map hexValue))).map hexDigit).reverse =
      (if s.length % 2 = 1 then [48] else []) ++ s.map lower := by
  have lower_case : (s.reverse.map hexValue).map hexDigit = (s.map lower).reverse := by
    rw [List.map_map, ← List.map_reverse]
    exact List.map_congr_left fun b mem => hexDigit_hexValue (hex b (List.mem_reverse.mp mem))
  rw [unpack_pack, List.map_append, List.reverse_append, lower_case, List.reverse_reverse,
    List.length_map, List.length_reverse]
  split
  case isTrue odd => rfl
  case isFalse even => rfl

theorem digits_round (h : instr.Str 0 s) (some : s ≠ []) (hex : ∀ b ∈ s, IsHex b)
    (fits : s.length + 1 < size) :
    (convertHexToStr size (convertStrToHex size (fun _ => []) instr outbuf) outstr
      (byteInStr instr size)).Str 0
        ((if s.length % 2 = 1 then [48] else []) ++ s.map lower) := by
  have packed : (convertStrToHex size (fun _ => []) instr outbuf).Holds 0
      (pack (s.reverse.map hexValue)) := convertStrToHex_holds h hex (Nat.lt_of_succ_lt fits)
  have length : (pack (s.reverse.map hexValue)).length = (s.length + 1) / 2 := by
    rw [pack_length, List.length_map, List.length_reverse]
  have count : byteInStr instr size = (pack (s.reverse.map hexValue)).length := by
    rw [byteInStr, h.strlen (Nat.lt_of_succ_lt fits), length]
  have pos := List.length_pos_iff.mpr some
  rw [count, ← unpack_pack_digits hex]
  exact convertHexToStr_str packed (List.length_pos_iff.mp (by omega)) (by omega)

theorem bytes_round (h : inbuf.Holds 0 bytes) (some : bytes ≠ [])
    (fits : 2 * bytes.length < size) :
    (convertStrToHex size (fun _ => []) (convertHexToStr size inbuf outstr bytes.length)
      outbuf).Holds 0 bytes := by
  have digits : (convertHexToStr size inbuf outstr bytes.length).Str 0
      ((unpack bytes).map hexDigit).reverse := convertHexToStr_str h some fits
  have hex : ∀ b ∈ ((unpack bytes).map hexDigit).reverse, IsHex b := by
    intro b mem
    obtain ⟨v, _, rfl⟩ := List.mem_map.mp (List.mem_reverse.mp mem)
    exact isHex_hexDigit
  have fits' : ((unpack bytes).map hexDigit).reverse.length < size := by
    rw [List.length_reverse, List.length_map, unpack_length]
    exact fits
  have values : ((unpack bytes).map hexDigit).map hexValue = unpack bytes := by
    rw [List.map_map]
    exact List.map_id'' (fun v => hexValue_hexDigit) _
  have back := List.reverse_reverse ((unpack bytes).map hexDigit)
  have whole : pack (unpack bytes) = bytes := pack_unpack
  conv_rhs => rw [← whole, ← values, ← back]
  exact convertStrToHex_holds digits hex fits'

/-- From digits to bytes and back there are the same digits in lower case, behind a zero
where their number is odd; from bytes to digits and back there are the same bytes. -/
theorem codec_round_trip (size : Nat) :
    (∀ (instr outbuf outstr : Image) (s : List UInt8), instr.Str 0 s → s ≠ [] →
      (∀ b ∈ s, IsHex b) → s.length + 1 < size →
        (convertHexToStr size (convertStrToHex size (fun _ => []) instr outbuf) outstr
          (byteInStr instr size)).Str 0
            ((if s.length % 2 = 1 then [48] else []) ++ s.map lower)) ∧
    ∀ (inbuf outstr outbuf : Image) (bytes : List UInt8), inbuf.Holds 0 bytes → bytes ≠ [] →
      2 * bytes.length < size →
        (convertStrToHex size (fun _ => []) (convertHexToStr size inbuf outstr bytes.length)
          outbuf).Holds 0 bytes :=
  ⟨fun _ _ _ _ h some hex fits => digits_round h some hex fits,
    fun _ _ _ _ h some fits => bytes_round h some fits⟩

/-- A buffer with a string in it. -/
def holding (l : List UInt8) : Image := Image.write (fun _ => 0) 0 (l ++ [0])

theorem odd_digits_round : (convertHexToStr 64 (convertStrToHex 64 (fun _ => [])
      (holding (chars "1aF")) (holding [])) (holding []) (byteInStr (holding (chars "1aF")) 64)).Str
        0 (chars "01af") ∧
    (convertStrToHex 64 (fun _ => []) (convertHexToStr 64 (holding [255, 16]) (holding []) 2)
      (holding [])).Holds 0 [255, 16] := by
  have hex : (chars "1aF").all (fun b => decide (IsHex b)) = true := by decide
  constructor
  · exact (codec_round_trip 64).1 _ _ _ (chars "1aF") (Image.str_write (by decide)) (by decide)
      (fun b mem => of_decide_eq_true (List.all_eq_true.mp hex b mem)) (by decide)
  · exact (codec_round_trip 64).2 _ _ _ [255, 16]
      (Image.holds_append.mp (Image.str_write (by decide)).bytes).1 (by decide) (by decide)

end LearnC.Convert
