import PaclinkUnix.Buffer

/-!
The CRC of `lzhuf_1.c`, kept over every byte that is written or read.
-/

namespace PaclinkUnix

def crctab : List UInt16 := [
  0x0000, 0x1021, 0x2042, 0x3063, 0x4084, 0x50a5, 0x60c6, 0x70e7,
  0x8108, 0x9129, 0xa14a, 0xb16b, 0xc18c, 0xd1ad, 0xe1ce, 0xf1ef,
  0x1231, 0x0210, 0x3273, 0x2252, 0x52b5, 0x4294, 0x72f7, 0x62d6,
  0x9339, 0x8318, 0xb37b, 0xa35a, 0xd3bd, 0xc39c, 0xf3ff, 0xe3de,
  0x2462, 0x3443, 0x0420, 0x1401, 0x64e6, 0x74c7, 0x44a4, 0x5485,
  0xa56a, 0xb54b, 0x8528, 0x9509, 0xe5ee, 0xf5cf, 0xc5ac, 0xd58d,
  0x3653, 0x2672, 0x1611, 0x0630, 0x76d7, 0x66f6, 0x5695, 0x46b4,
  0xb75b, 0xa77a, 0x9719, 0x8738, 0xf7df, 0xe7fe, 0xd79d, 0xc7bc,
  0x48c4, 0x58e5, 0x6886, 0x78a7, 0x0840, 0x1861, 0x2802, 0x3823,
  0xc9cc, 0xd9ed, 0xe98e, 0xf9af, 0x8948, 0x9969, 0xa90a, 0xb92b,
  0x5af5, 0x4ad4, 0x7ab7, 0x6a96, 0x1a71, 0x0a50, 0x3a33, 0x2a12,
  0xdbfd, 0xcbdc, 0xfbbf, 0xeb9e, 0x9b79, 0x8b58, 0xbb3b, 0xab1a,
  0x6ca6, 0x7c87, 0x4ce4, 0x5cc5, 0x2c22, 0x3c03, 0x0c60, 0x1c41,
  0xedae, 0xfd8f, 0xcdec, 0xddcd, 0xad2a, 0xbd0b, 0x8d68, 0x9d49,
  0x7e97, 0x6eb6, 0x5ed5, 0x4ef4, 0x3e13, 0x2e32, 0x1e51, 0x0e70,
  0xff9f, 0xefbe, 0xdfdd, 0xcffc, 0xbf1b, 0xaf3a, 0x9f59, 0x8f78,
  0x9188, 0x81a9, 0xb1ca, 0xa1eb, 0xd10c, 0xc12d, 0xf14e, 0xe16f,
  0x1080, 0x00a1, 0x30c2, 0x20e3, 0x5004, 0x4025, 0x7046, 0x6067,
  0x83b9, 0x9398, 0xa3fb, 0xb3da, 0xc33d, 0xd31c, 0xe37f, 0xf35e,
  0x02b1, 0x1290, 0x22f3, 0x32d2, 0x4235, 0x5214, 0x6277, 0x7256,
  0xb5ea, 0xa5cb, 0x95a8, 0x8589, 0xf56e, 0xe54f, 0xd52c, 0xc50d,
  0x34e2, 0x24c3, 0x14a0, 0x0481, 0x7466, 0x6447, 0x5424, 0x4405,
  0xa7db, 0xb7fa, 0x8799, 0x97b8, 0xe75f, 0xf77e, 0xc71d, 0xd73c,
  0x26d3, 0x36f2, 0x0691, 0x16b0, 0x6657, 0x7676, 0x4615, 0x5634,
  0xd94c, 0xc96d, 0xf90e, 0xe92f, 0x99c8, 0x89e9, 0xb98a, 0xa9ab,
  0x5844, 0x4865, 0x7806, 0x6827, 0x18c0, 0x08e1, 0x3882, 0x28a3,
  0xcb7d, 0xdb5c, 0xeb3f, 0xfb1e, 0x8bf9, 0x9bd8, 0xabbb, 0xbb9a,
  0x4a75, 0x5a54, 0x6a37, 0x7a16, 0x0af1, 0x1ad0, 0x2ab3, 0x3a92,
  0xfd2e, 0xed0f, 0xdd6c, 0xcd4d, 0xbdaa, 0xad8b, 0x9de8, 0x8dc9,
  0x7c26, 0x6c07, 0x5c64, 0x4c45, 0x3ca2, 0x2c83, 0x1ce0, 0x0cc1,
  0xef1f, 0xff3e, 0xcf5d, 0xdf7c, 0xaf9b, 0xbfba, 0x8fd9, 0x9ff8,
  0x6e17, 0x7e36, 0x4e55, 0x5e74, 0x2e93, 0x3eb2, 0x0ed1, 0x1ef0]

/-- `updcrc`, on an `unsigned short`. -/
def updcrc (cp : UInt8) (crc : UInt16) : UInt16 :=
  (crc <<< 8) ^^^ crctab.getD (cp ^^^ (crc >>> 8).toUInt8).toNat 0

def crcOf (crc : UInt16) (bytes : Bytes) : UInt16 := bytes.foldl (fun crc cp => updcrc cp crc) crc

theorem halves_inj {crc other : UInt16} (high : (crc >>> 8).toUInt8 = (other >>> 8).toUInt8)
    (low : crc <<< 8 = other <<< 8) : crc = other := by
  apply UInt16.eq_of_toBitVec_eq
  have high := congrArg UInt8.toBitVec high
  have low := congrArg UInt16.toBitVec low
  ext i inside
  by_cases small : i < 8
  · have bit := congrArg (fun v => v.getLsbD (i + 8)) low
    simpa [show i + 8 < 16 by omega, BitVec.getLsbD_eq_getElem inside] using bit
  · have bit := congrArg (fun v => v.getLsbD (i - 8)) high
    simpa [show i - 8 < 8 by omega, show 8 + (i - 8) = i by omega, BitVec.getLsbD_eq_getElem inside]
      using bit

theorem mask_low (crc : UInt16) : (crc &&& 0xff).toUInt8 = crc.toUInt8 := by
  apply UInt8.toNat_inj.mp
  have masked : crc.toNat % 256 &&& 255 = crc.toNat % 256 % 256 :=
    Nat.and_two_pow_sub_one_eq_mod _ 8
  simp [masked]

theorem bytes_join (crc : UInt16) : ((crc &&& 0xff).toUInt8).toUInt16 |||
    (((crc >>> 8) &&& 0xff).toUInt8).toUInt16 <<< 8 = crc := by
  rw [mask_low, mask_low]
  apply UInt16.toNat_inj.mp
  have small := crc.toNat_lt
  have joined := Nat.shiftLeft_add_eq_or_of_lt (show crc.toNat % 256 < 2 ^ 8 by omega)
    (crc.toNat / 256)
  rw [Nat.or_comm] at joined
  have high : (crc.toNat / 256 % 256) <<< 8 % 65536 = (crc.toNat / 256) <<< 8 := by
    simp only [Nat.shiftLeft_eq]
    omega
  simp only [UInt16.toNat_or, UInt8.toNat_toUInt16, UInt16.toNat_toUInt8, UInt16.toNat_shiftLeft,
    UInt16.toNat_shiftRight, Nat.shiftRight_eq_div_pow]
  refine (congrArg (crc.toNat % 256 ||| ·) high).trans (joined.symm.trans ?_)
  simp only [Nat.shiftLeft_eq]
  omega

theorem bytes_inj {a b c d : UInt8}
    (same : a.toUInt16 ||| b.toUInt16 <<< 8 = c.toUInt16 ||| d.toUInt16 <<< 8) : a = c ∧ b = d := by
  have bits := congrArg UInt16.toBitVec same
  constructor
  · apply UInt8.eq_of_toBitVec_eq
    ext i inside
    have bit := congrArg (fun v => v.getLsbD i) bits
    simpa [inside, show i < 16 by omega, BitVec.getLsbD_eq_getElem inside] using bit
  · apply UInt8.eq_of_toBitVec_eq
    ext i inside
    have bit := congrArg (fun v => v.getLsbD (i + 8)) bits
    simpa [inside, show i + 8 < 16 by omega, show i < 16 by omega,
      BitVec.getLsbD_eq_getElem inside] using bit

/-- Where in the table an entry with this lower byte stands. -/
def crctabIndex (low : UInt8) : Nat :=
  let x := (low.toNat ^^^ (low.toNat <<< 5)) % 256
  x ^^^ (x >>> 4)

theorem crctab_index :
    (crctab.map fun entry => crctabIndex entry.toUInt8) = List.range 256 := by
  decide +kernel

theorem crctab_low_inj {a b : UInt8}
    (same : (crctab.getD a.toNat 0).toUInt8 = (crctab.getD b.toNat 0).toUInt8) : a = b := by
  have place : ∀ c : UInt8, crctabIndex (crctab.getD c.toNat 0).toUInt8 = c.toNat := by
    intro c
    have entry := congrArg (fun indices => indices[c.toNat]?) crctab_index
    rw [List.getElem?_map, List.getElem?_range c.toNat_lt] at entry
    rw [List.getD_eq_getElem?_getD]
    rcases found : crctab[c.toNat]? with _ | value
    · rw [found] at entry
      cases entry
    · rw [found] at entry
      exact Option.some.inj entry
  have equal := congrArg crctabIndex same
  rw [place, place] at equal
  exact UInt8.toNat_inj.mp equal

theorem updcrc_low (cp : UInt8) (crc : UInt16) :
    (updcrc cp crc).toUInt8 = (crctab.getD (cp ^^^ (crc >>> 8).toUInt8).toNat 0).toUInt8 := by
  have zero : (crc <<< 8).toUInt8 = 0 := by
    apply UInt8.eq_of_toBitVec_eq
    ext i inside
    simp
  rw [updcrc, UInt16.toUInt8_xor, zero, UInt8.zero_xor]

theorem updcrc_byte {cp other : UInt8} {crc : UInt16} (same : updcrc cp crc = updcrc other crc) :
    cp = other := by
  have low := congrArg UInt16.toUInt8 same
  rw [updcrc_low, updcrc_low] at low
  have equal := congrArg (· ^^^ (crc >>> 8).toUInt8) (crctab_low_inj low)
  simpa [UInt8.xor_assoc] using equal

theorem updcrc_crc {cp : UInt8} {crc other : UInt16} (same : updcrc cp crc = updcrc cp other) :
    crc = other := by
  have low := congrArg UInt16.toUInt8 same
  rw [updcrc_low, updcrc_low] at low
  have equal := congrArg (cp ^^^ ·) (crctab_low_inj low)
  have high : (crc >>> 8).toUInt8 = (other >>> 8).toUInt8 := by
    simpa [← UInt8.xor_assoc] using equal
  rw [updcrc, updcrc, high] at same
  have shifted := congrArg
    (· ^^^ crctab.getD (cp ^^^ (other >>> 8).toUInt8).toNat 0) same
  exact halves_inj high (by simpa [UInt16.xor_assoc] using shifted)

theorem crcOf_crc {crc other : UInt16} {bytes : Bytes} (same : crcOf crc bytes = crcOf other bytes) :
    crc = other := by
  induction bytes generalizing crc other with
  | nil => exact same
  | cons c rest ih => exact updcrc_crc (ih same)

theorem crcOf_append (crc : UInt16) (first second : Bytes) :
    crcOf crc (first ++ second) = crcOf (crcOf crc first) second :=
  List.foldl_append

theorem crcOf_set {crc : UInt16} {bytes : Bytes} {k : Nat} (inside : k < bytes.length) {v : UInt8}
    (changed : v ≠ bytes[k]) : crcOf crc (bytes.set k v) ≠ crcOf crc bytes := by
  induction bytes generalizing crc k with
  | nil => exact absurd inside (Nat.not_lt_zero k)
  | cons c rest ih =>
      intro same
      cases k with
      | zero => exact changed (updcrc_byte (crcOf_crc same))
      | succ k => exact ih (Nat.lt_of_succ_lt_succ inside) changed same

end PaclinkUnix
