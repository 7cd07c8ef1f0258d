import BitCrystal.Machine.Base64
import BitCrystal.Machine.MarkedWords
import BitCrystal.Model.GetWork
import Mathlib.Data.List.Rotate

/-! # The security codecs

Texts are encoded in base 64 and combined with a stream of characters that a seeded generator gives, the same for each
direction. There are two implementations of base 64 with different counters: `unsigned int` and `int` lengths, and `int`
indices that must not overflow. Texts are byte strings; the end of a C string is a NUL. The hash form of a mail text
puts words of hexadecimal digits in the place of its characters.
-/

namespace BitCrystal

/-- `pbase64`. -/
def pbase64 (n : ℕ) : UInt8 :=
  UInt8.ofNat (if n < 26 then 65 + n else if n < 52 then 97 + (n - 26) else if n < 62 then 48 + (n - 52)
    else if n = 62 then 43 else 47)

/-- `decode64_table`, `none` where it has -1. -/
def decode64_table (c : UInt8) : Option ℕ :=
  if c = 43 then some 62
  else if c = 47 then some 63
  else if 48 ≤ c ∧ c ≤ 57 then some (c.toNat - 48 + 52)
  else if 65 ≤ c ∧ c ≤ 90 then some (c.toNat - 65)
  else if 97 ≤ c ∧ c ≤ 122 then some (c.toNat - 97 + 26)
  else none

/-- The bits that are left of the bytes read so far. -/
inductive EncodeMode where
  | none
  | two (left : ℕ)
  | four (left : ℕ)

def encodeBase64Loop : EncodeMode → List UInt8 → List UInt8
  | .none, [] => []
  | .two left, [] => [pbase64 left, 61, 61]
  | .four left, [] => [pbase64 left, 61]
  | .none, enc :: pch => pbase64 (enc.toNat >>> 2) :: encodeBase64Loop (.two ((enc.toNat &&& 3) <<< 4)) pch
  | .two left, enc :: pch =>
    pbase64 (left ||| enc.toNat >>> 4) :: encodeBase64Loop (.four ((enc.toNat &&& 15) <<< 2)) pch
  | .four left, enc :: pch =>
    pbase64 (left ||| enc.toNat >>> 6) :: pbase64 (enc.toNat &&& 63) :: encodeBase64Loop .none pch

/-- `EncodeBase64`. -/
def encodeBase64 (pch : List UInt8) : List UInt8 := encodeBase64Loop .none pch

/-- The bits that are kept of the characters read so far. -/
inductive DecodeMode where
  | none
  | six (left : ℕ)
  | four (left : ℕ)
  | two (left : ℕ)

/-- The loop of `DecodeBase64`: the bytes, the mode it ends in and what it has not read. -/
def decodeBase64Run : DecodeMode → List UInt8 → List UInt8 × DecodeMode × List UInt8
  | mode, [] => ([], mode, [])
  | mode, p :: rest =>
    match decode64_table p with
    | .none => ([], mode, p :: rest)
    | some dec =>
      match mode with
      | .none => decodeBase64Run (.six dec) rest
      | .six left => (decodeBase64Run (.four (dec &&& 15)) rest).map (UInt8.ofNat (left <<< 2 ||| dec >>> 4) :: ·) id
      | .four left => (decodeBase64Run (.two (dec &&& 3)) rest).map (UInt8.ofNat (left <<< 4 ||| dec >>> 2) :: ·) id
      | .two left => (decodeBase64Run .none rest).map (UInt8.ofNat (left <<< 6 ||| dec) :: ·) id

/-- `DecodeBase64` where nobody looks at whether the text was valid. -/
def decodeBase64 (p : List UInt8) : List UInt8 := (decodeBase64Run .none p).1

/-! ## base64.cpp -/

def base64_chars : List UInt8 :=
  (List.range 26).map (fun n => UInt8.ofNat (65 + n)) ++ (List.range 26).map (fun n => UInt8.ofNat (97 + n)) ++
    (List.range 10).map (fun n => UInt8.ofNat (48 + n)) ++ [43, 47]

def is_base64 (c : UInt8) : Bool :=
  (65 ≤ c ∧ c ≤ 90) ∨ (97 ≤ c ∧ c ≤ 122) ∨ (48 ≤ c ∧ c ≤ 57) ∨ c = 43 ∨ c = 47

/-- `base64_chars[i]`. -/
def base64Char (i : ℕ) : UInt8 := base64_chars.getD i 0

/-- `char_array_4` of `char_array_3`. -/
def quadOf (a b c : UInt8) : List ℕ :=
  [(a.toNat &&& 0xfc) >>> 2, ((a.toNat &&& 0x03) <<< 4) + ((b.toNat &&& 0xf0) >>> 4),
    ((b.toNat &&& 0x0f) <<< 2) + ((c.toNat &&& 0xc0) >>> 6), c.toNat &&& 0x3f]

def base64EncodeLoop : List UInt8 → List UInt8
  | a :: b :: c :: rest => (quadOf a b c).map base64Char ++ base64EncodeLoop rest
  | [a, b] => ((quadOf a b 0).take 3).map base64Char ++ [61]
  | [a] => ((quadOf a 0 0).take 2).map base64Char ++ [61, 61]
  | [] => []

/-- `base64_encode(bytes_to_encode, in_len)`. -/
def base64_encode (bytes_to_encode : List UInt8) (in_len : ℕ) : List UInt8 :=
  base64EncodeLoop (bytes_to_encode.take (in_len % 2 ^ 32))

/-- `base64_chars.find(c)` as an `unsigned char`. -/
def base64Find (c : UInt8) : ℕ := if c ∈ base64_chars then base64_chars.idxOf c else 255

/-- `char_array_3` of a filled `char_array_4`. -/
def tripleOf (char_array_4 : List UInt8) : List UInt8 :=
  match char_array_4.map base64Find with
  | [w, x, y, z] =>
    [UInt8.ofNat ((w <<< 2) + ((x &&& 0x30) >>> 4)), UInt8.ofNat (((x &&& 0xf) <<< 4) + ((y &&& 0x3c) >>> 2)),
      UInt8.ofNat (((y &&& 0x3) <<< 6) + z)]
  | _ => []

/-- The bytes of a last group, the rest of which is filled with zeros. -/
def tailOf (char_array_4 : List UInt8) : List UInt8 :=
  (tripleOf (char_array_4 ++ List.replicate (4 - char_array_4.length) 0)).take (char_array_4.length - 1)

/-- The loop of `base64_decode`; `in_len--` must not overflow. -/
def base64DecodeLoop : ℤ → List UInt8 → List UInt8 → Check (List UInt8)
  | in_len, char_array_4, [] => do
    rejectIf (in_len = -2 ^ 31) .overflow
    return tailOf char_array_4
  | in_len, char_array_4, c :: rest => do
    rejectIf (in_len = -2 ^ 31) .overflow
    if in_len ≠ 0 ∧ c ≠ 61 ∧ is_base64 c then
      if char_array_4.length = 3 then do
        let ret ← base64DecodeLoop (in_len - 1) [] rest
        return tripleOf (char_array_4 ++ [c]) ++ ret
      else base64DecodeLoop (in_len - 1) (char_array_4 ++ [c]) rest
    else return tailOf char_array_4

/-- `base64_decode`. -/
def base64_decode (encoded_string : List UInt8) : Check (List UInt8) :=
  base64DecodeLoop ((encoded_string.length : ℤ).bmod (2 ^ 32)) [] encoded_string

/-! ## random.cpp

`rand` is the generator of the GNU C library: words that are sums of earlier ones.
-/

/-- The sum of the words 31 and 3 before. -/
def random_r (words : List ℕ) : ℕ := (words.headD 0 + words.getD 28 0) % 2 ^ 32

def randStep (words : List ℕ) : List ℕ := words.tail ++ [random_r words]

/-- `srand(seed)`: 31 words of a linear generator, and 310 steps whose numbers nobody sees. -/
def srand (seed : ℕ) : List ℕ :=
  randStep^[310] (((List.range 31).map fun i => (fun word => 16807 * word % 2147483647)^[i] seed).rotate 3)

/-- What the next calls of `rand` return. -/
def rands : ℕ → List ℕ → List ℕ
  | 0, _ => []
  | calls + 1, words => random_r words / 2 :: rands calls (randStep words)

/-- Entry `i` of the table that `get_encoded_table_my` fills: `_srand(0)`, and `_rand(1, 127)` draws until the number is
greater than 1. One number in sixty is not. -/
def get_encoded_table_my (i : ℕ) : UInt8 :=
  UInt8.ofNat ((((rands (2 * i + 64) (srand 1420297560)).map (· % 127)).filter (1 < ·)).getD i 0)

/-- `for (int i = 0; i < len; i++)`, whose index must not overflow. -/
def checkIndex (len : ℕ) : Check Unit := rejectIf (2 ^ 31 ≤ len) .overflow

/-- The first `len` characters are combined with the table. -/
def applyTable (keystream : ℕ → UInt8) (len : ℕ) (text : List UInt8) : List UInt8 :=
  text.mapIdx fun i c => if i < len then c ^^^ keystream i else c

variable (keystream : ℕ → UInt8)

def encode_security (bytes_to_encode : List UInt8) (in_len : ℕ) : Check (List UInt8) := do
  let encode := base64_encode bytes_to_encode in_len
  let len := encode.length % 2 ^ 32
  checkIndex len
  return applyTable keystream len encode

def decode_security (encoded_string : List UInt8) : Check (List UInt8) := do
  let len := encoded_string.length % 2 ^ 32
  checkIndex len
  base64_decode (applyTable keystream len encoded_string)

/-- `encodeBase64Data`, with a `size_t` length. -/
def encodeBase64Data (data : List UInt8) : List UInt8 := encodeBase64 data

/-- `decodeBase64Data` and `decodeEnding`. -/
def decodeBase64Data (data : List UInt8) : Check (List UInt8) := do
  let cpy := decodeBase64 data
  checkIndex cpy.length
  return cpy

def encodeDataSecurity (y : List UInt8) : Check (List UInt8) := do
  let encode ← encode_security keystream y y.length
  return encodeBase64Data encode

def decodeDataSecurity (str : List UInt8) : Check (List UInt8) := do
  let str ← decodeBase64Data str
  decode_security keystream str

def encodeDataSecurityEmail (y : List UInt8) : Check (List UInt8) := do
  let encode := encodeBase64Data y
  let encode := encodeBase64Data encode
  let encode := encodeBase64Data encode
  let encode := encodeBase64Data encode
  let encode ← encode_security keystream encode encode.length
  return encodeBase64Data encode

def decodeBase64DataLight (str2 : List UInt8) : Check (List UInt8) := decodeBase64Data str2

def decodeDataSecurityEmail (str : List UInt8) : Check (List UInt8) := do
  let str ← decodeBase64Data str
  let str2 ← decode_security keystream str
  let ret ← decodeBase64DataLight str2
  let ret ← decodeBase64DataLight ret
  let ret ← decodeBase64DataLight ret
  decodeBase64DataLight ret

/-- What `createmultisigaddressex` makes of its document. -/
def createmultisigaddressexText (str : List UInt8) : Check (List UInt8) := do
  let str ← encode_security keystream str str.length
  return base64_encode str str.length

/-- How `addmultisigaddressex` reads it. -/
def addmultisigaddressexText (x : List UInt8) : Check (List UInt8) := do
  let decode ← base64_decode x
  decode_security keystream decode

end BitCrystal

/-! ## The hash form of the mail codec

Each character of a mail text is written as a word of 64 hexadecimal digits, and the words are encoded as a mail again.
-/

namespace BitCrystal

/-- The words of `decodeDataSecurityEmailHash`, in its order. -/
def hashWords : List (UInt8 × ℕ) :=
  [ (48, 0x000000bc13facd0ff483e484ee7e0fb4d658f47cd59e0d9a99b3ed1c83253c46),
    (49, 0x0000006b6dd69913a3baa44246caa7ba1173121d546ae92a14bb57c438eff89c),
    (50, 0x0000000fa03d900cc979e333d668b09ff0fd414334721107dcb197fe10ea5a78),
    (51, 0x000000b2e856412179eb59cedcd36e5e2326335a596a445c36ccbe4241a76bdf),
    (52, 0x000000022334e084b9130b06e7ec3764e895b9ddf0172fdacdae43b12f9c6136),
    (53, 0x0000002d815c2aa45450bf504f56b06ab12d3a3b55f631b5870abf131b342aff),
    (54, 0x0000009c1b9fb3352b9622ee70bd1e6bbffa6f55c6cedc08a010905ebbf009dc),
    (55, 0x0000001a24fe761f0dda385156e5b4fe47cdb0a3ccecfd1859f988260fb734ae),
    (56, 0x00000092dd45f39d16f233267b9c7ebfa092689aa0012a206720797a0d587bf1),
    (57, 0x00000020392ba932bab3066400c273279007355e1e4ddc08948ac3b7a4499ed5),
    (44, 0x0000001f6fee4d78a802498141c6689d7c9074def17eb5fed1678cad71cedb91),
    (59, 0x000000e7f19e975efe6b2923ed96f5a9fe5991b1733393c36308b2b82ba19cc0),
    (33, 0x000000c11ddedd753455e18746a845527bca59c4133bc501cb05755bc6e5d41d),
    (63, 0x00000029cd44fe4f2a03a9588972785692aec3b3abbfa43b87af9c9fda74499f),
    (36, 0x000000ccd5b8b7ec969916d75148825cf677cd19e4e67d0cb918d5febef2cb13),
    (46, 0x00000045ccc678fbe64f2074ba52baaf19133cfd2c8f961c8f9639b9c01950ad),
    (65, 0x0000005f62b8676a3ad6af87d327bb7058ec288b98aba2e0e8bda2dde3078173),
    (66, 0x000000b257bb5bf7911d37cb8f1c8ed740ae44d9cfca3a53c9992f5544a2afb5),
    (67, 0x000000e8759a7325aa771ae7884d30f5e24f721b7d3fe81b25b379645c3b1e77),
    (68, 0x000000e358dc10690199e14e740a07c5cc25d1a3a1033bc22bd7eeb8933cc6a8),
    (69, 0x000000ef2a7f435782193ee8dea723efda2da27e244035bb45409537b459b312),
    (70, 0x000000a4611542396a3c997a1ed5ecdab3b732fe2b59a76d03406ccf28c7a78f),
    (71, 0x00000088114dc21118b779bde7147fbfb39bb35821c50c5c04203908da360429),
    (72, 0x00000004ba1064db92c95df383f3a14b08b64f86c95f1d14eaaa6fa5083cd3aa),
    (73, 0x000000884aebf477346484e4f9b0b0723d0138b4fcaa933f45a7ca6832b2cfdc),
    (74, 0x00000061aa985dd8ca16abf89a21261001209289f42a21f436ee8e292c448946),
    (75, 0x0000000bfa8ff2fa43a86f76bd81499b85b20761d4ed2b21085f513b3fc4bc1d),
    (76, 0x0000001d31f7d2d459f1a332045c57004417845a68b56613b0b458dbf58fff34),
    (77, 0x000000289a52751253722a5ef90eb94f085ac6c478f3094754831370107aa9e9),
    (78, 0x000000e906111324edc2783c02025c42fa74b473558a1db574ac4b70395b0a6b),
    (79, 0x0000000b8d7b3b5098ca418dd3147e6b60006da562c43fdb888fec52e18ffbfd),
    (80, 0x0000007f15d4bc1b9881921e7207a1f6fdf44251310a299fc86f3900570a1841),
    (81, 0x0000003766e0de06191a3e19977fb06accc8de7e0bf5cc910942ab87b36b24a7),
    (82, 0x0000001fd79e5f5e7a79ece6b855c388ba3f81253b64bf2c73ef60b83dddea8e),
    (83, 0x0000004b8c90670771b83da1d1626bbc60063a4f0e9c659aefdcde445571c233),
    (84, 0x000000c81520530a140701dbb1fd290511bd41b5d37bb9f3bc5b2d4a44f5c5f1),
    (85, 0x000000e654480d946831a9e7836cc8a94f29d6f4a35a9bafdbda3611862e4424),
    (86, 0x000000e469f1dce9484e92c49291eb2f3bc5cdc167dce9d6daf1fda3036f7921),
    (87, 0x0000004f2b9f5cd3a12e99ca8fefb7cbab6ab883b4053d4671ecb4acbbff506f),
    (88, 0x00000017fb7497e67bb27b33fc78936af20678cb1b1526f82186e14811cc0a18),
    (89, 0x00000072576daea2462347b3667ad30f20107d004ba4b2b51ca193fde8d6dbae),
    (90, 0x00000045483b70f3aba766bc0316f582552a31933d2af740d07bf51eba8d3f74),
    (97, 0x0000008a623d436626d9dc30ac07649cc4616c0ccd5c4d52364f5b0104d67ad8),
    (98, 0x000000dc682cba62616e9cb5a26cd3143a8410e01db24a0389ebbdd164d6c261),
    (99, 0x000000374227dd4bf4fce3f00750a5c3df8598dfa41408d74578c289445260d2),
    (100, 0x0000008a9a1174c733b72953e174e69fa3170c87ba3c5e51386c1457f173d7e2),
    (101, 0x00000000b2517da2257d6fc7904e472a6a0d5807333d39b201aec4ebf1d7c615),
    (102, 0x0000002be1048de356aee19881be1b58fa7ee656872677eb963cfa5b4e38fe73),
    (103, 0x000000ab7bfab78d2303bf4c250589e21601cc643218fb60fe23e518dcb3dcf0),
    (104, 0x00000068dcb194d7deae33eca99459cd6e520a405d436e4115cda1e9f6bcf5ed),
    (105, 0x000000298ae85bccdac86daeca16091e11d84f12206eb91e758d08753a19d6ae),
    (106, 0x000000e2bdc746bf35962cffae2b61ff8ba0b7e32ea6a4e3bc143abedcb8b9cb),
    (107, 0x000000b2534d86e881786e70dfe6d4155bb7d1b305d665a50395c23c44c5ae90),
    (108, 0x000000bda72a1f71acab63a57e30e61e6d32a05f8ff27611c06e2e667fdf9958),
    (109, 0x000000f2e57484e82b51deb5d865b2e5ddb5f2cf5963c8628815a33cda49230c),
    (110, 0x000000f51fd09f79cd4ee9068c52df9d9e3116f9710087b679d71e493f5c0e77),
    (111, 0x0000000438662150a862d888ffed689e1a0b7284943b954369a256a159253db8),
    (112, 0x0000009a213e02fe42b47f1f1178a781ba6726e9e7dc28bff59d47d74a15a45d),
    (113, 0x0000005ce7bed97dc5eca5573a908562038e186fc9ab1063d9c076042c8ac2a3),
    (114, 0x00000076fbd1cdc608e019b574543e7ec08570cf8925bd5155d1c505eeed2929),
    (115, 0x000000b6e0991623387ee7b7851c65a92649ed2595b96eaf1f148e34a4570555),
    (116, 0x000000f72e46055ecaa5332695062d0795266f418759581166e9841307ef8e5c),
    (117, 0x0000008a08888b9c19f6ea1cee17e14d206a8b767847dd12035bab651c58f086),
    (118, 0x000000b88c68ec786362607f1d6324ab71987c238c051cbe134124a551cdb0ff),
    (119, 0x000000af044d896b6cadff3398c74b8c54aaf7454325ce3269f7957cde467212),
    (120, 0x000000c5248cf04af68ef1bcd262d4fbeb0a562169f6c68b4f76edbae87dcc20),
    (121, 0x00000037fd9533ae63942844eb35155fa0fb6c11b193b7582f35e404dc92d637),
    (122, 0x0000002db3b3872a398d8dc05e721071fcab383eec6caeaf3502709e36a36a24) ]

/-- A word, with leading zeros. -/
def hashText (hash : ℕ) : List UInt8 := (List.range 64).map fun i => hexmap (UInt8.ofNat (hash >>> (4 * (63 - i)) % 16))

/-- The `switch` of `encodeDataSecurityEmailHash`: a character without a case adds nothing, and the comma has none. -/
def hashWord (c : UInt8) : List UInt8 :=
  if c = 44 then []
  else match hashWords.lookup c with
    | some hash => hashText hash
    | none => []

/-- `str_replace`, of a text that is not empty. -/
def str_replace (s search replace : List UInt8) : List UInt8 := MarkedWords.replaceAll search replace 0 s

/-- All replacements of `decodeDataSecurityEmailHash`. -/
def replaceHashes (s : List UInt8) : List UInt8 :=
  hashWords.foldl (fun decode2 entry => str_replace decode2 (hashText entry.2) [entry.1]) s

variable (keystream : ℕ → UInt8)

def encodeDataSecurityEmailHash (y : List UInt8) : Check (List UInt8) := do
  let ret ← encodeDataSecurityEmail keystream y
  checkIndex ret.length
  let t := ret.flatMap hashWord
  encodeDataSecurityEmail keystream t

def decodeDataSecurityEmailHash (y : List UInt8) : Check (List UInt8) := do
  let decode2 ← decodeDataSecurityEmail keystream y
  let decode2 := replaceHashes decode2
  decodeDataSecurityEmail keystream decode2

end BitCrystal
