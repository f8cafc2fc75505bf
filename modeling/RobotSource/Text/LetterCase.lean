/-!
# Letter case

Lower case is mapped for every character (`lowerCase`), since keywords are compared in lower case
against whatever text the user typed. Each character is mapped by itself, also a capital sigma at
the end of a word, which has a small letter of its own there; the keys of all lookups are ASCII, so
none of them tells the two apart. Upper case is mapped as far as its result is plain ASCII
(`upperCase`): upper-cased text is only ever compared with ASCII words, and the upper case of every
other character holds a character outside ASCII. `sameIgnoringCase` compares names with ASCII
letters identified.
-/

namespace RobotSource.Text

/-! ## Lower case -/

/-- A run of capital letters at equal distances, each as far from its small letter as the others. -/
structure CaseRun where
  first : Nat
  last : Nat
  step : Nat
  offset : Int

/-- A single capital letter. -/
def CaseRun.one (n : Nat) (offset : Int) : CaseRun := ⟨n, n, 1, offset⟩

/-- Capital letters that stand right before their small letters. -/
def CaseRun.pairs (first last : Nat) : CaseRun := ⟨first, last, 2, 1⟩

/-- Whether the code point is one of the run. -/
def CaseRun.covers (r : CaseRun) (n : Nat) : Bool :=
  r.first ≤ n && n ≤ r.last && (n - r.first) % r.step == 0

/-- The capital letters outside ASCII whose small letter is a single character. -/
def lowerCaseRuns : List CaseRun := [
  ⟨0xc0, 0xd6, 1, 32⟩, ⟨0xd8, 0xde, 1, 32⟩, .pairs 0x100 0x12e, .pairs 0x132 0x136,
  .pairs 0x139 0x147, .pairs 0x14a 0x176, .one 0x178 (-121), .pairs 0x179 0x17d, .one 0x181 210,
  .pairs 0x182 0x184, .one 0x186 206, .one 0x187 1, ⟨0x189, 0x18a, 1, 205⟩, .one 0x18b 1,
  .one 0x18e 79, .one 0x18f 202, .one 0x190 203, .one 0x191 1, .one 0x193 205, .one 0x194 207,
  .one 0x196 211, .one 0x197 209, .one 0x198 1, .one 0x19c 211, .one 0x19d 213, .one 0x19f 214,
  .pairs 0x1a0 0x1a4, .one 0x1a6 218, .one 0x1a7 1, .one 0x1a9 218, .one 0x1ac 1, .one 0x1ae 218,
  .one 0x1af 1, ⟨0x1b1, 0x1b2, 1, 217⟩, .pairs 0x1b3 0x1b5, .one 0x1b7 219, .one 0x1b8 1,
  .one 0x1bc 1, .one 0x1c4 2, .one 0x1c5 1, .one 0x1c7 2, .one 0x1c8 1, .one 0x1ca 2,
  .pairs 0x1cb 0x1db, .pairs 0x1de 0x1ee, .one 0x1f1 2, .pairs 0x1f2 0x1f4, .one 0x1f6 (-97),
  .one 0x1f7 (-56), .pairs 0x1f8 0x21e, .one 0x220 (-130), .pairs 0x222 0x232, .one 0x23a 10795,
  .one 0x23b 1, .one 0x23d (-163), .one 0x23e 10792, .one 0x241 1, .one 0x243 (-195), .one 0x244 69,
  .one 0x245 71, .pairs 0x246 0x24e, .pairs 0x370 0x372, .one 0x376 1, .one 0x37f 116,
  .one 0x386 38, ⟨0x388, 0x38a, 1, 37⟩, .one 0x38c 64, ⟨0x38e, 0x38f, 1, 63⟩, ⟨0x391, 0x3a1, 1, 32⟩,
  ⟨0x3a3, 0x3ab, 1, 32⟩, .one 0x3cf 8, .pairs 0x3d8 0x3ee, .one 0x3f4 (-60), .one 0x3f7 1,
  .one 0x3f9 (-7), .one 0x3fa 1, ⟨0x3fd, 0x3ff, 1, -130⟩, ⟨0x400, 0x40f, 1, 80⟩,
  ⟨0x410, 0x42f, 1, 32⟩, .pairs 0x460 0x480, .pairs 0x48a 0x4be, .one 0x4c0 15, .pairs 0x4c1 0x4cd,
  .pairs 0x4d0 0x52e, ⟨0x531, 0x556, 1, 48⟩, ⟨0x10a0, 0x10c5, 1, 7264⟩, .one 0x10c7 7264,
  .one 0x10cd 7264, ⟨0x13a0, 0x13ef, 1, 38864⟩, ⟨0x13f0, 0x13f5, 1, 8⟩, ⟨0x1c90, 0x1cba, 1, -3008⟩,
  ⟨0x1cbd, 0x1cbf, 1, -3008⟩, .pairs 0x1e00 0x1e94, .one 0x1e9e (-7615), .pairs 0x1ea0 0x1efe,
  ⟨0x1f08, 0x1f0f, 1, -8⟩, ⟨0x1f18, 0x1f1d, 1, -8⟩, ⟨0x1f28, 0x1f2f, 1, -8⟩,
  ⟨0x1f38, 0x1f3f, 1, -8⟩, ⟨0x1f48, 0x1f4d, 1, -8⟩, ⟨0x1f59, 0x1f5f, 2, -8⟩,
  ⟨0x1f68, 0x1f6f, 1, -8⟩, ⟨0x1f88, 0x1f8f, 1, -8⟩, ⟨0x1f98, 0x1f9f, 1, -8⟩,
  ⟨0x1fa8, 0x1faf, 1, -8⟩, ⟨0x1fb8, 0x1fb9, 1, -8⟩, ⟨0x1fba, 0x1fbb, 1, -74⟩, .one 0x1fbc (-9),
  ⟨0x1fc8, 0x1fcb, 1, -86⟩, .one 0x1fcc (-9), ⟨0x1fd8, 0x1fd9, 1, -8⟩, ⟨0x1fda, 0x1fdb, 1, -100⟩,
  ⟨0x1fe8, 0x1fe9, 1, -8⟩, ⟨0x1fea, 0x1feb, 1, -112⟩, .one 0x1fec (-7), ⟨0x1ff8, 0x1ff9, 1, -128⟩,
  ⟨0x1ffa, 0x1ffb, 1, -126⟩, .one 0x1ffc (-9), .one 0x2126 (-7517), .one 0x212a (-8383),
  .one 0x212b (-8262), .one 0x2132 28, ⟨0x2160, 0x216f, 1, 16⟩, .one 0x2183 1,
  ⟨0x24b6, 0x24cf, 1, 26⟩, ⟨0x2c00, 0x2c2f, 1, 48⟩, .one 0x2c60 1, .one 0x2c62 (-10743),
  .one 0x2c63 (-3814), .one 0x2c64 (-10727), .pairs 0x2c67 0x2c6b, .one 0x2c6d (-10780),
  .one 0x2c6e (-10749), .one 0x2c6f (-10783), .one 0x2c70 (-10782), .one 0x2c72 1, .one 0x2c75 1,
  ⟨0x2c7e, 0x2c7f, 1, -10815⟩, .pairs 0x2c80 0x2ce2, .pairs 0x2ceb 0x2ced, .one 0x2cf2 1,
  .pairs 0xa640 0xa66c, .pairs 0xa680 0xa69a, .pairs 0xa722 0xa72e, .pairs 0xa732 0xa76e,
  .pairs 0xa779 0xa77b, .one 0xa77d (-35332), .pairs 0xa77e 0xa786, .one 0xa78b 1,
  .one 0xa78d (-42280), .pairs 0xa790 0xa792, .pairs 0xa796 0xa7a8, .one 0xa7aa (-42308),
  .one 0xa7ab (-42319), .one 0xa7ac (-42315), .one 0xa7ad (-42305), .one 0xa7ae (-42308),
  .one 0xa7b0 (-42258), .one 0xa7b1 (-42282), .one 0xa7b2 (-42261), .one 0xa7b3 928,
  .pairs 0xa7b4 0xa7c2, .one 0xa7c4 (-48), .one 0xa7c5 (-42307), .one 0xa7c6 (-35384),
  .pairs 0xa7c7 0xa7c9, .one 0xa7d0 1, .pairs 0xa7d6 0xa7d8, .one 0xa7f5 1, ⟨0xff21, 0xff3a, 1, 32⟩,
  ⟨0x10400, 0x10427, 1, 40⟩, ⟨0x104b0, 0x104d3, 1, 40⟩, ⟨0x10570, 0x1057a, 1, 39⟩,
  ⟨0x1057c, 0x1058a, 1, 39⟩, ⟨0x1058c, 0x10592, 1, 39⟩, ⟨0x10594, 0x10595, 1, 39⟩,
  ⟨0x10c80, 0x10cb2, 1, 64⟩, ⟨0x118a0, 0x118bf, 1, 32⟩, ⟨0x16e40, 0x16e5f, 1, 32⟩,
  ⟨0x1e900, 0x1e921, 1, 34⟩]

/-- The lower case of a character. One capital, the dotted I, becomes two characters. -/
def lowerCase (c : Char) : List Char :=
  if c.toNat < 128 then [c.toLower]
  else if c.toNat = 0x130 then ['i', Char.ofNat 0x307]
  else match lowerCaseRuns.find? (·.covers c.toNat) with
    | some r => [Char.ofNat (c.toNat + r.offset).toNat]
    | none => [c]

/-- The lower case of a text. -/
def lower (s : String) : String :=
  String.ofList (s.toList.flatMap lowerCase)

/-! ## Upper case -/

/-- The characters outside ASCII whose upper case consists of ASCII letters. -/
def asciiCapitals : List (Nat × String) :=
  [(0xdf, "SS"), (0x131, "I"), (0x17f, "S"), (0xfb00, "FF"), (0xfb01, "FI"), (0xfb02, "FL"),
   (0xfb03, "FFI"), (0xfb04, "FFL"), (0xfb05, "ST"), (0xfb06, "ST")]

/-- The upper case of a character where it is plain ASCII; any other character stands for itself. -/
def upperCase (c : Char) : List Char :=
  if c.toNat < 128 then [c.toUpper]
  else match asciiCapitals.find? (·.1 == c.toNat) with
    | some (_, capital) => capital.toList
    | none => [c]

/-- The upper case of a text, for comparison with ASCII words. -/
def upper (s : String) : String :=
  String.ofList (s.toList.flatMap upperCase)

/-! ## Comparison of names -/

/-- Two lists of characters that differ at most in the case of ASCII letters. -/
def sameCharsIgnoringCase (a b : List Char) : Bool :=
  a.map Char.toLower == b.map Char.toLower

/-- Two names that differ at most in the case of ASCII letters. -/
def sameIgnoringCase (a b : String) : Bool :=
  sameCharsIgnoringCase a.toList b.toList

end RobotSource.Text
