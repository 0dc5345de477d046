import Nyaux.Flanterm.ControlSequence
import Nyaux.Lib.IntervalSearch

/-! The glyph that stands for a character, and how many columns it is wide. -/

namespace Nyaux.Flanterm

open IntervalSearch

/-- The intervals of non-spacing characters in `mk_wcwidth`. -/
def combining : List (ClosedInterval Nat) :=
  [⟨0x0300, 0x036F⟩, ⟨0x0483, 0x0486⟩, ⟨0x0488, 0x0489⟩, ⟨0x0591, 0x05BD⟩,
    ⟨0x05BF, 0x05BF⟩, ⟨0x05C1, 0x05C2⟩, ⟨0x05C4, 0x05C5⟩, ⟨0x05C7, 0x05C7⟩,
    ⟨0x0600, 0x0603⟩, ⟨0x0610, 0x0615⟩, ⟨0x064B, 0x065E⟩, ⟨0x0670, 0x0670⟩,
    ⟨0x06D6, 0x06E4⟩, ⟨0x06E7, 0x06E8⟩, ⟨0x06EA, 0x06ED⟩, ⟨0x070F, 0x070F⟩,
    ⟨0x0711, 0x0711⟩, ⟨0x0730, 0x074A⟩, ⟨0x07A6, 0x07B0⟩, ⟨0x07EB, 0x07F3⟩,
    ⟨0x0901, 0x0902⟩, ⟨0x093C, 0x093C⟩, ⟨0x0941, 0x0948⟩, ⟨0x094D, 0x094D⟩,
    ⟨0x0951, 0x0954⟩, ⟨0x0962, 0x0963⟩, ⟨0x0981, 0x0981⟩, ⟨0x09BC, 0x09BC⟩,
    ⟨0x09C1, 0x09C4⟩, ⟨0x09CD, 0x09CD⟩, ⟨0x09E2, 0x09E3⟩, ⟨0x0A01, 0x0A02⟩,
    ⟨0x0A3C, 0x0A3C⟩, ⟨0x0A41, 0x0A42⟩, ⟨0x0A47, 0x0A48⟩, ⟨0x0A4B, 0x0A4D⟩,
    ⟨0x0A70, 0x0A71⟩, ⟨0x0A81, 0x0A82⟩, ⟨0x0ABC, 0x0ABC⟩, ⟨0x0AC1, 0x0AC5⟩,
    ⟨0x0AC7, 0x0AC8⟩, ⟨0x0ACD, 0x0ACD⟩, ⟨0x0AE2, 0x0AE3⟩, ⟨0x0B01, 0x0B01⟩,
    ⟨0x0B3C, 0x0B3C⟩, ⟨0x0B3F, 0x0B3F⟩, ⟨0x0B41, 0x0B43⟩, ⟨0x0B4D, 0x0B4D⟩,
    ⟨0x0B56, 0x0B56⟩, ⟨0x0B82, 0x0B82⟩, ⟨0x0BC0, 0x0BC0⟩, ⟨0x0BCD, 0x0BCD⟩,
    ⟨0x0C3E, 0x0C40⟩, ⟨0x0C46, 0x0C48⟩, ⟨0x0C4A, 0x0C4D⟩, ⟨0x0C55, 0x0C56⟩,
    ⟨0x0CBC, 0x0CBC⟩, ⟨0x0CBF, 0x0CBF⟩, ⟨0x0CC6, 0x0CC6⟩, ⟨0x0CCC, 0x0CCD⟩,
    ⟨0x0CE2, 0x0CE3⟩, ⟨0x0D41, 0x0D43⟩, ⟨0x0D4D, 0x0D4D⟩, ⟨0x0DCA, 0x0DCA⟩,
    ⟨0x0DD2, 0x0DD4⟩, ⟨0x0DD6, 0x0DD6⟩, ⟨0x0E31, 0x0E31⟩, ⟨0x0E34, 0x0E3A⟩,
    ⟨0x0E47, 0x0E4E⟩, ⟨0x0EB1, 0x0EB1⟩, ⟨0x0EB4, 0x0EB9⟩, ⟨0x0EBB, 0x0EBC⟩,
    ⟨0x0EC8, 0x0ECD⟩, ⟨0x0F18, 0x0F19⟩, ⟨0x0F35, 0x0F35⟩, ⟨0x0F37, 0x0F37⟩,
    ⟨0x0F39, 0x0F39⟩, ⟨0x0F71, 0x0F7E⟩, ⟨0x0F80, 0x0F84⟩, ⟨0x0F86, 0x0F87⟩,
    ⟨0x0F90, 0x0F97⟩, ⟨0x0F99, 0x0FBC⟩, ⟨0x0FC6, 0x0FC6⟩, ⟨0x102D, 0x1030⟩,
    ⟨0x1032, 0x1032⟩, ⟨0x1036, 0x1037⟩, ⟨0x1039, 0x1039⟩, ⟨0x1058, 0x1059⟩,
    ⟨0x1160, 0x11FF⟩, ⟨0x135F, 0x135F⟩, ⟨0x1712, 0x1714⟩, ⟨0x1732, 0x1734⟩,
    ⟨0x1752, 0x1753⟩, ⟨0x1772, 0x1773⟩, ⟨0x17B4, 0x17B5⟩, ⟨0x17B7, 0x17BD⟩,
    ⟨0x17C6, 0x17C6⟩, ⟨0x17C9, 0x17D3⟩, ⟨0x17DD, 0x17DD⟩, ⟨0x180B, 0x180D⟩,
    ⟨0x18A9, 0x18A9⟩, ⟨0x1920, 0x1922⟩, ⟨0x1927, 0x1928⟩, ⟨0x1932, 0x1932⟩,
    ⟨0x1939, 0x193B⟩, ⟨0x1A17, 0x1A18⟩, ⟨0x1B00, 0x1B03⟩, ⟨0x1B34, 0x1B34⟩,
    ⟨0x1B36, 0x1B3A⟩, ⟨0x1B3C, 0x1B3C⟩, ⟨0x1B42, 0x1B42⟩, ⟨0x1B6B, 0x1B73⟩,
    ⟨0x1DC0, 0x1DCA⟩, ⟨0x1DFE, 0x1DFF⟩, ⟨0x200B, 0x200F⟩, ⟨0x202A, 0x202E⟩,
    ⟨0x2060, 0x2063⟩, ⟨0x206A, 0x206F⟩, ⟨0x20D0, 0x20EF⟩, ⟨0x302A, 0x302F⟩,
    ⟨0x3099, 0x309A⟩, ⟨0xA806, 0xA806⟩, ⟨0xA80B, 0xA80B⟩, ⟨0xA825, 0xA826⟩,
    ⟨0xFB1E, 0xFB1E⟩, ⟨0xFE00, 0xFE0F⟩, ⟨0xFE20, 0xFE23⟩, ⟨0xFEFF, 0xFEFF⟩,
    ⟨0xFFF9, 0xFFFB⟩, ⟨0x10A01, 0x10A03⟩, ⟨0x10A05, 0x10A06⟩, ⟨0x10A0C, 0x10A0F⟩,
    ⟨0x10A38, 0x10A3A⟩, ⟨0x10A3F, 0x10A3F⟩, ⟨0x1D167, 0x1D169⟩, ⟨0x1D173, 0x1D182⟩,
    ⟨0x1D185, 0x1D18B⟩, ⟨0x1D1AA, 0x1D1AD⟩, ⟨0x1D242, 0x1D244⟩, ⟨0xE0001, 0xE0001⟩,
    ⟨0xE0020, 0xE007F⟩, ⟨0xE0100, 0xE01EF⟩]

/-- `bisearch`, with `max` the table's last index. -/
def bisearch (ucs : Nat) (table : List (ClosedInterval Nat)) : Bool :=
  match table.head?, table.getLast? with
  | some head, some last =>
      if ucs < head.first ∨ ucs > last.last then false
      else search table ucs table.length 0 table.length
  | _, _ => false

/-- The wide ranges at the end of `mk_wcwidth`. -/
def wide (ucs : Nat) : Bool :=
  ucs ≥ 0x1100 ∧
    (ucs ≤ 0x115f ∨ ucs = 0x2329 ∨ ucs = 0x232a ∨
      (ucs ≥ 0x2e80 ∧ ucs ≤ 0xa4cf ∧ ucs ≠ 0x303f) ∨
      (ucs ≥ 0xac00 ∧ ucs ≤ 0xd7a3) ∨
      (ucs ≥ 0xf900 ∧ ucs ≤ 0xfaff) ∨
      (ucs ≥ 0xfe10 ∧ ucs ≤ 0xfe19) ∨
      (ucs ≥ 0xfe30 ∧ ucs ≤ 0xfe6f) ∨
      (ucs ≥ 0xff00 ∧ ucs ≤ 0xff60) ∨
      (ucs ≥ 0xffe0 ∧ ucs ≤ 0xffe6) ∨
      (ucs ≥ 0x20000 ∧ ucs ≤ 0x2fffd) ∨
      (ucs ≥ 0x30000 ∧ ucs ≤ 0x3fffd))

/-- `mk_wcwidth` -/
def mkWcwidth (ucs : Nat) : Nat :=
  if ucs = 0 then 0
  else if ucs < 32 ∨ (ucs ≥ 0x7f ∧ ucs < 0xa0) then 1
  else if bisearch ucs combining then 0
  else if wide ucs then 2 else 1

/-- The cases of `unicode_to_cp437`. -/
def cp437 : List (Nat × UInt8) :=
  [(0x263a, 1), (0x263b, 2), (0x2665, 3), (0x2666, 4), (0x2663, 5), (0x2660, 6),
    (0x2022, 7), (0x25d8, 8), (0x25cb, 9), (0x25d9, 10), (0x2642, 11), (0x2640, 12),
    (0x266a, 13), (0x266b, 14), (0x263c, 15), (0x25ba, 16), (0x25c4, 17), (0x2195, 18),
    (0x203c, 19), (0x00b6, 20), (0x00a7, 21), (0x25ac, 22), (0x21a8, 23), (0x2191, 24),
    (0x2193, 25), (0x2192, 26), (0x2190, 27), (0x221f, 28), (0x2194, 29), (0x25b2, 30),
    (0x25bc, 31), (0x2302, 127), (0x00c7, 128), (0x00fc, 129), (0x00e9, 130), (0x00e2, 131),
    (0x00e4, 132), (0x00e0, 133), (0x00e5, 134), (0x00e7, 135), (0x00ea, 136), (0x00eb, 137),
    (0x00e8, 138), (0x00ef, 139), (0x00ee, 140), (0x00ec, 141), (0x00c4, 142), (0x00c5, 143),
    (0x00c9, 144), (0x00e6, 145), (0x00c6, 146), (0x00f4, 147), (0x00f6, 148), (0x00f2, 149),
    (0x00fb, 150), (0x00f9, 151), (0x00ff, 152), (0x00d6, 153), (0x00dc, 154), (0x00a2, 155),
    (0x00a3, 156), (0x00a5, 157), (0x20a7, 158), (0x0192, 159), (0x00e1, 160), (0x00ed, 161),
    (0x00f3, 162), (0x00fa, 163), (0x00f1, 164), (0x00d1, 165), (0x00aa, 166), (0x00ba, 167),
    (0x00bf, 168), (0x2310, 169), (0x00ac, 170), (0x00bd, 171), (0x00bc, 172), (0x00a1, 173),
    (0x00ab, 174), (0x00bb, 175), (0x2591, 176), (0x2592, 177), (0x2593, 178), (0x2502, 179),
    (0x2524, 180), (0x2561, 181), (0x2562, 182), (0x2556, 183), (0x2555, 184), (0x2563, 185),
    (0x2551, 186), (0x2557, 187), (0x255d, 188), (0x255c, 189), (0x255b, 190), (0x2510, 191),
    (0x2514, 192), (0x2534, 193), (0x252c, 194), (0x251c, 195), (0x2500, 196), (0x253c, 197),
    (0x255e, 198), (0x255f, 199), (0x255a, 200), (0x2554, 201), (0x2569, 202), (0x2566, 203),
    (0x2560, 204), (0x2550, 205), (0x256c, 206), (0x2567, 207), (0x2568, 208), (0x2564, 209),
    (0x2565, 210), (0x2559, 211), (0x2558, 212), (0x2552, 213), (0x2553, 214), (0x256b, 215),
    (0x256a, 216), (0x2518, 217), (0x250c, 218), (0x2588, 219), (0x2584, 220), (0x258c, 221),
    (0x2590, 222), (0x2580, 223), (0x03b1, 224), (0x00df, 225), (0x0393, 226), (0x03c0, 227),
    (0x03a3, 228), (0x03c3, 229), (0x00b5, 230), (0x03c4, 231), (0x03a6, 232), (0x0398, 233),
    (0x03a9, 234), (0x03b4, 235), (0x221e, 236), (0x03c6, 237), (0x03b5, 238), (0x2229, 239),
    (0x2261, 240), (0x00b1, 241), (0x2265, 242), (0x2264, 243), (0x2320, 244), (0x2321, 245),
    (0x00f7, 246), (0x2248, 247), (0x00b0, 248), (0x2219, 249), (0x00b7, 250), (0x221a, 251),
    (0x207f, 252), (0x00b2, 253), (0x25a0, 254)]

/-- `unicode_to_cp437`, with `none` for -1. -/
def unicodeToCp437 (codePoint : Nat) : Option UInt8 := cp437.lookup codePoint

/-- The cases of `dec_special_print`. -/
def decSpecial : List (UInt8 × UInt8) :=
  [(0x60, 0x04), (0x30, 0xdb), (0x2d, 0x18), (0x2c, 0x1b), (0x2e, 0x19), (0x61, 0xb1),
    (0x66, 0xf8), (0x67, 0xf1), (0x68, 0xb0), (0x6a, 0xd9), (0x6b, 0xbf), (0x6c, 0xda),
    (0x6d, 0xc0), (0x6e, 0xc5), (0x71, 0xc4), (0x73, 0x5f), (0x74, 0xc3), (0x75, 0xb4),
    (0x76, 0xc1), (0x77, 0xc2), (0x78, 0xb3), (0x79, 0xf3), (0x7a, 0xf2), (0x7e, 0xfa),
    (0x5f, 0xff), (0x2b, 0x1a), (0x7b, 0xe3), (0x7d, 0x9c)]

end Nyaux.Flanterm
