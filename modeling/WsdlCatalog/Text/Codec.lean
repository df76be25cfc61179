/-
  WsdlCatalog.Text.Codec — encodings by their names.

  Of an encoding that gives every octet a character of its own, and ASCII characters
  to the lower half, the characters are known. Of any other only its kind is. A name
  goes by its letters, digits and dots: whatever stands between them counts as one
  underscore, and large letters as small ones.
-/

import WsdlCatalog.Text.Codec.Page

namespace WsdlCatalog.Text

inductive Codec where
  /-- Nothing beyond ASCII, and of ASCII not the characters in `missing`. -/
  | ascii (missing : List Char)
  /-- ASCII in the lower half, and the characters of the last octets; an octet between them
  stands for its own number. -/
  | page (upper : List Char)
  /-- A character may take more than one octet. -/
  | wide
  /-- Every octet has a character, but the lower half is not ASCII. -/
  | foreign
  /-- It fails at octets beyond ASCII. -/
  | strict
  /-- It reads no octets, or none by themselves. -/
  | unreadable
  deriving DecidableEq, Repr

namespace Codec

/-! ## Characters -/

def charOf? (codec : Codec) (b : UInt8) : Option Char :=
  let n := b.toNat
  match codec with
  | ascii missing =>
    if n < 0x80 && !missing.contains (Char.ofNat n) then some (Char.ofNat n) else none
  | page upper =>
    let known := 0x100 - upper.length
    if n < 0x80 || n < known then some (Char.ofNat n)
    else upper[n - known]?.filter (· != '\ufffd')
  | _ => none

/-! ## Names -/

def isNamePart (c : Char) : Bool := c.isAlphanum || c == '.'

/-- The rest of a name; `parted` tells that something stood before it that is no part of a name. -/
def normalFrom (parted : Bool) : List Char → List Char
  | [] => []
  | c :: rest =>
    if isNamePart c then
      if parted then '_' :: c.toLower :: normalFrom false rest else c.toLower :: normalFrom false rest
    else normalFrom true rest

def normalName (name : String) : List Char := normalFrom false (name.toList.dropWhile (!isNamePart ·))

def latinNames : List String :=
  ["charmap", "cp819", "csisolatin1", "ibm819", "iso8859", "iso8859_1", "iso_8859_1",
   "iso_8859_1_1987", "iso_ir_100", "l1", "latin", "latin1", "latin_1", "raw_unicode_escape",
   "unicode_escape"]

/-- Names of ASCII, and of encodings that go beyond it by more than one octet a character alone. -/
def asciiNames : List String :=
  ["ansi_x3.4_1968", "ansi_x3.4_1986", "ansi_x3_4_1968", "ascii", "cp367", "cp65001", "csascii",
   "csiso2022jp", "ibm367", "iso2022_jp", "iso2022_jp_1", "iso2022_jp_2", "iso2022_jp_2004",
   "iso2022_jp_3", "iso2022_jp_ext", "iso2022jp", "iso2022jp_1", "iso2022jp_2", "iso2022jp_2004",
   "iso2022jp_3", "iso2022jp_ext", "iso646_us", "iso_2022_jp", "iso_2022_jp_1", "iso_2022_jp_2",
   "iso_2022_jp_2004", "iso_2022_jp_3", "iso_2022_jp_ext", "iso_646.irv_1991", "iso_ir_6", "u8",
   "us", "us_ascii", "utf", "utf8", "utf8_ucs2", "utf8_ucs4", "utf_8", "utf_8_sig"]

def tildeNames : List String :=
  ["hz", "hz_gb", "hz_gb_2312", "hzgb"]

def wideNames : List String :=
  ["big5", "big5_hkscs", "big5_tw", "big5hkscs", "chinese", "cp1361", "cp932", "cp936", "cp949",
   "cp950", "csbig5", "csiso2022kr", "csiso58gb231280", "csshiftjis", "euc_cn", "euc_jis2004",
   "euc_jis_2004", "euc_jisx0213", "euc_jp", "euc_kr", "euccn", "eucgb2312_cn", "eucjis2004",
   "eucjisx0213", "eucjp", "euckr", "gb18030", "gb18030_2000", "gb2312", "gb2312_1980",
   "gb2312_80", "gbk", "hkscs", "iso2022_kr", "iso2022kr", "iso_2022_kr", "iso_ir_58",
   "jisx0213", "johab", "korean", "ks_c_5601", "ks_c_5601_1987", "ks_x_1001", "ksc5601",
   "ksx1001", "ms1361", "ms932", "ms936", "ms949", "ms950", "ms_kanji", "mskanji", "s_jis",
   "s_jis_2004", "s_jisx0213", "shift_jis", "shift_jis_2004", "shift_jisx0213", "shiftjis",
   "shiftjis2004", "shiftjisx0213", "sjis", "sjis_2004", "sjisx0213", "u16", "u32", "u7",
   "u_jis", "uhc", "ujis", "unicode_1_1_utf_7", "unicodebigunmarked", "unicodelittleunmarked",
   "utf16", "utf32", "utf7", "utf_16", "utf_16_be", "utf_16_le", "utf_16be", "utf_16le",
   "utf_32", "utf_32_be", "utf_32_le", "utf_32be", "utf_32le", "utf_7", "x_mac_japanese",
   "x_mac_korean", "x_mac_simp_chinese", "x_mac_trad_chinese"]

def foreignNames : List String :=
  ["cp037", "cp1026", "cp1140", "cp273", "cp424", "cp500", "cp864", "cp875", "csibm037",
   "csibm1026", "csibm273", "csibm424", "csibm500", "csibm864", "ebcdic_cp_be", "ebcdic_cp_ca",
   "ebcdic_cp_ch", "ebcdic_cp_he", "ebcdic_cp_nl", "ebcdic_cp_us", "ebcdic_cp_wt", "ibm037",
   "ibm039", "ibm1026", "ibm1140", "ibm273", "ibm424", "ibm500", "ibm864", "mac_arabic",
   "mac_farsi"]

def strictNames : List String := ["punycode"]

def unreadableNames : List String := ["idna", "undefined"]

/-- Names that cannot be written with dots in the place of their underscores. -/
def undottedNames : List String :=
  ["euc_jis_2004", "euc_jisx0213", "euc_jp", "euc_kr", "hp_roman8", "iso2022_jp", "iso2022_jp_1",
   "iso2022_jp_2", "iso2022_jp_2004", "iso2022_jp_3", "iso2022_jp_ext", "iso2022_kr",
   "iso8859_10", "iso8859_11", "iso8859_13", "iso8859_14", "iso8859_15", "iso8859_16",
   "iso8859_2", "iso8859_3", "iso8859_4", "iso8859_5", "iso8859_6", "iso8859_7", "iso8859_8",
   "iso8859_9", "koi8_r", "koi8_t", "koi8_u", "latin_1", "mac_arabic", "mac_croatian",
   "mac_cyrillic", "mac_farsi", "mac_greek", "mac_iceland", "mac_latin2", "mac_roman",
   "mac_romanian", "mac_turkish", "raw_unicode_escape", "shift_jis", "shift_jis_2004",
   "shift_jisx0213", "tis_620", "unicode_escape", "utf_16", "utf_16_be", "utf_16_le", "utf_32",
   "utf_32_be", "utf_32_le", "utf_7", "utf_8", "utf_8_sig"]

def ofNormalName? (name : String) : Option Codec :=
  if asciiNames.contains name then some (ascii [])
  else if tildeNames.contains name then some (ascii ['~'])
  else if latinNames.contains name then some (page [])
  else if wideNames.contains name then some wide
  else if foreignNames.contains name then some foreign
  else if strictNames.contains name then some strict
  else if unreadableNames.contains name then some unreadable
  else (pages.find? (·.1.contains name)).map fun found => page found.2.toList

def named? (name : String) : Option Codec :=
  let normal := normalName name
  match ofNormalName? (String.ofList normal) with
  | some codec => some codec
  | none =>
    let undotted := String.ofList (normal.map fun c => if c == '.' then '_' else c)
    if undottedNames.contains undotted then none else ofNormalName? undotted

end Codec

end WsdlCatalog.Text
