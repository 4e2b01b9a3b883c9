import ImgSync.Lib.Decimal
import ImgSync.Sniffer.Query

/-!
# The text form of a primary key

`Fetch` prints a key with `%v` of whatever the driver returns, and the next
`Fetch` sends that text to the source database, which reads it as a value of
the column's type.  `KeyType.goText` is the printer and `KeyType.input` is the
reader, for the three types that a key column has here.

A `BIGINT` and a `TEXT` key read back, so these are columns in the sense of
`PkColumn`.  A `UUID` comes from the driver as an array of bytes, whose text
starts with a bracket, and no text of this form is a `UUID`.
-/

namespace ImgSync.Sniffer

open ImgSync.Lib ImgSync.Queue

/-- The types of a primary key column. -/
inductive KeyType where
  | bigint
  | text
  | uuid
  deriving DecidableEq, Repr

/-- A `BIGINT`. -/
abbrev BigInt := { n : Int // -9223372036854775808 ≤ n ∧ n ≤ 9223372036854775807 }

/-- A `TEXT` that is not empty. -/
abbrev NonemptyText := { s : String // s ≠ "" }

/-- A `UUID`. -/
abbrev Uuid := { bytes : List UInt8 // bytes.length = 16 }

/-- The values of a key column. -/
def KeyType.Key : KeyType → Type
  | .bigint => BigInt
  | .text => NonemptyText
  | .uuid => Uuid

/-! ## What Go prints -/

/-- The elements of a byte array from the first or a later one on, up to the
closing bracket. -/
def bytesText (first : Bool) : List UInt8 → List Char
  | [] => [']']
  | b :: rest => (if first then [] else [' ']) ++ itoa b.toNat ++ bytesText false rest

/-- `fmt.Sprintf("%v", v)` of the value that `rows.Values` yields: an `int64`,
a `string` or a `[16]byte`. -/
def KeyType.goText : (ty : KeyType) → ty.Key → String
  | .bigint, n => String.ofList (itoaInt n.val)
  | .text, s => s.val
  | .uuid, u => String.ofList ('[' :: bytesText true u.val)

/-- `%T` of that value. -/
def KeyType.goType : KeyType → String
  | .bigint => "int64"
  | .text => "string"
  | .uuid => "[16]uint8"

/-! ## What the database reads -/

/-- `isspace` of the C library. -/
def isSpace (c : Char) : Bool := c = ' ' || ('\t' ≤ c && c ≤ '\r')

/-- `int8in` on decimal text: blanks around an integer in range. -/
def int8in (cs : List Char) : Option BigInt :=
  match readInt (cs.dropWhile isSpace) with
  | none => none
  | some (n, rest) =>
    if rest.all isSpace then
      if h : -9223372036854775808 ≤ n ∧ n ≤ 9223372036854775807 then some ⟨n, h⟩ else none
    else none

/-- The value of a hexadecimal digit. -/
def hexValue (c : Char) : Option Nat :=
  if '0' ≤ c ∧ c ≤ '9' then some (c.toNat - '0'.toNat)
  else if 'a' ≤ c ∧ c ≤ 'f' then some (c.toNat - 'a'.toNat + 10)
  else if 'A' ≤ c ∧ c ≤ 'F' then some (c.toNat - 'A'.toNat + 10)
  else none

/-- The loop of `uuid_in`, with `left` bytes to read: two digits for a byte,
and a hyphen behind every second byte but the last. -/
def readBytes : Nat → List Char → Option (List UInt8 × List Char)
  | 0, cs => some ([], cs)
  | left + 1, a :: b :: cs => do
    let high ← hexValue a
    let low ← hexValue b
    let cs := if left % 2 = 0 ∧ 0 < left ∧ cs.head? = some '-' then cs.tail else cs
    let (bytes, cs) ← readBytes left cs
    some (UInt8.ofNat (high * 16 + low) :: bytes, cs)
  | _, _ => none

/-- The bytes of a `UUID` text, in braces or without. -/
def uuidBytes (cs : List Char) : Option (List UInt8) :=
  let braces : Bool := cs.head? = some '\x7b'
  match readBytes 16 (if braces then cs.tail else cs) with
  | none => none
  | some (bytes, rest) => if rest = (if braces then ['\x7d'] else []) then some bytes else none

/-- `uuid_in`. -/
def uuidIn (cs : List Char) : Option Uuid :=
  match uuidBytes cs with
  | none => none
  | some bytes => if h : bytes.length = 16 then some ⟨bytes, h⟩ else none

/-- The text input of the column's type. -/
def KeyType.input : (ty : KeyType) → String → Option ty.Key
  | .bigint, s => int8in s.toList
  | .text, s => if h : s ≠ "" then some ⟨s, h⟩ else none
  | .uuid, s => uuidIn s.toList

/-! ## Which keys read back -/

theorem head_itoaInt (n : Int) : ∃ c ∈ (itoaInt n).head?, isSpace c = false := by
  have hdigit : ∀ c : Char, c.isDigit = true → isSpace c = false := by
    intro c hc
    rw [Char.isDigit, Bool.and_eq_true, decide_eq_true_eq, decide_eq_true_eq] at hc
    have hlow : '0' ≤ c := hc.1
    have hblank : c ≠ ' ' := fun h => absurd (h ▸ hlow) (by decide)
    have htab : ¬c ≤ '\r' := fun h => absurd (Char.le_trans hlow h) (by decide)
    simp [isSpace, hblank, htab]
  unfold itoaInt
  split
  · exact ⟨'-', rfl, by decide⟩
  · obtain ⟨c, hc, hd⟩ := head_itoa n.natAbs []
    rw [List.append_nil] at hc
    exact ⟨c, hc, hdigit c hd⟩

theorem int8in_itoaInt (n : BigInt) : int8in (itoaInt n.val) = some n := by
  obtain ⟨c, hc, hspace⟩ := head_itoaInt n.val
  have hdrop : (itoaInt n.val).dropWhile isSpace = itoaInt n.val := by
    cases hcs : itoaInt n.val with
    | nil => rfl
    | cons d cs =>
      rw [hcs] at hc
      obtain rfl : d = c := Option.some.inj hc
      rw [List.dropWhile_cons_of_neg (by simp [hspace])]
  simp [int8in, hdrop, readInt_itoaInt_end n.val, n.property.1, n.property.2]

/-- No text that starts with a bracket is a `UUID`. -/
theorem uuidIn_bracket (cs : List Char) : uuidIn ('[' :: cs) = none := by
  have hbytes : readBytes 16 ('[' :: cs) = none := by
    cases cs with
    | nil => rfl
    | cons b cs => rfl
  have hnone : uuidBytes ('[' :: cs) = none := by
    simp [uuidBytes, hbytes]
  rw [uuidIn, hnone]

/-- A key reads back unless it is a `UUID`. -/
theorem input_goText (ty : KeyType) (k : ty.Key) :
    ty.input (ty.goText k) = if ty = .uuid then none else some k := by
  cases ty with
  | bigint =>
    show int8in (String.ofList (itoaInt k.val)).toList = some k
    rw [String.toList_ofList]
    exact int8in_itoaInt k
  | text => exact dif_pos k.property
  | uuid =>
    show uuidIn (String.ofList ('[' :: bytesText true k.val)).toList = none
    rw [String.toList_ofList]
    exact uuidIn_bracket _

theorem goText_ne_empty (ty : KeyType) (k : ty.Key) : ty.goText k ≠ "" := by
  intro h
  have hlist := congrArg String.toList h
  cases ty with
  | bigint =>
    rw [KeyType.goText, String.toList_ofList] at hlist
    exact itoaInt_ne_nil k.val hlist
  | text => exact k.property h
  | uuid =>
    rw [KeyType.goText, String.toList_ofList] at hlist
    cases hlist

theorem endsNumber_bytesText (bs : List UInt8) : EndsNumber (bytesText false bs) := by
  intro c hc
  cases bs with
  | nil => exact Option.some.inj hc ▸ rfl
  | cons b rest => exact Option.some.inj hc ▸ rfl

theorem itoa_append_inj {m n : Nat} {cs ds : List Char} (hcs : EndsNumber cs)
    (hds : EndsNumber ds) (h : itoa m ++ cs = itoa n ++ ds) : m = n ∧ cs = ds := by
  have hread := congrArg readNat h
  rw [readNat_itoa m hcs, readNat_itoa n hds] at hread
  exact Prod.mk.inj (Option.some.inj hread)

/-- The bytes behind the first one can be read off the text. -/
theorem bytesText_inj {bs cs : List UInt8} (h : bytesText false bs = bytesText false cs) :
    bs = cs := by
  induction bs generalizing cs with
  | nil =>
    cases cs with
    | nil => rfl
    | cons c cs => exact absurd (List.cons.inj h).1 (by decide)
  | cons b bs ih =>
    cases cs with
    | nil => exact absurd (List.cons.inj h).1 (by decide)
    | cons c cs =>
      have htail : itoa b.toNat ++ bytesText false bs = itoa c.toNat ++ bytesText false cs :=
        (List.cons.inj h).2
      obtain ⟨hbyte, hrest⟩ :=
        itoa_append_inj (endsNumber_bytesText bs) (endsNumber_bytesText cs) htail
      rw [UInt8.toNat_inj.mp hbyte, ih hrest]

theorem uuidText_inj {u v : Uuid} (h : bytesText true u.val = bytesText true v.val) : u = v := by
  obtain ⟨bs, hbs⟩ := u
  obtain ⟨cs, hcs⟩ := v
  obtain ⟨b, bs, rfl⟩ := List.exists_cons_of_length_eq_add_one hbs
  obtain ⟨c, cs, rfl⟩ := List.exists_cons_of_length_eq_add_one hcs
  obtain ⟨hbyte, hrest⟩ := itoa_append_inj (endsNumber_bytesText bs) (endsNumber_bytesText cs) h
  rw [Subtype.mk.injEq, UInt8.toNat_inj.mp hbyte, bytesText_inj hrest]

/-- Distinct keys have distinct texts, `UUID`s too. -/
theorem goText_injective (ty : KeyType) {k k' : ty.Key} (h : ty.goText k = ty.goText k') :
    k = k' := by
  cases ty with
  | bigint =>
    have hread := congrArg (KeyType.input .bigint) h
    rw [input_goText, input_goText] at hread
    exact Option.some.inj hread
  | text => exact Subtype.ext h
  | uuid =>
    have hlist := congrArg String.toList h
    rw [KeyType.goText, KeyType.goText, String.toList_ofList, String.toList_ofList] at hlist
    exact uuidText_inj (List.cons.inj hlist).2

/-- The columns whose keys read back. -/
def KeyType.column (ty : KeyType) (hty : ty ≠ .uuid) : PkColumn ty.Key where
  goType := ty.goType
  text := ty.goText
  parse := ty.input
  parse_text := fun k => (input_goText ty k).trans (if_neg hty)
  text_ne := goText_ne_empty ty

/-! ## The comparison of the next query -/

/-- The watermark predicate of `Fetch` over a key column of any type. -/
def KeyType.after (ty : KeyType) [LinearOrder ty.Key] (st : State) :
    Except String (Version ty.Key → Bool) :=
  if st.lastRunPK = "" then
    .ok fun v => decide (st.lastRunTS < v.ts)
  else
    match ty.input st.lastRunPK with
    | none => .error "query: invalid input syntax"
    | some k =>
      .ok fun v => decide (st.lastRunTS < v.ts) ||
        (decide (v.ts = st.lastRunTS) && decide (k < v.pk))

theorem after_column (ty : KeyType) (hty : ty ≠ .uuid) [LinearOrder ty.Key] (st : State) :
    st.after (ty.column hty) = ty.after st := by
  have hparse : (ty.column hty).parse = ty.input := rfl
  unfold State.after KeyType.after
  rw [hparse]
  cases ty.input st.lastRunPK <;> rfl

/-- The state that `Load` returns after an `Upsert`. -/
theorem load_upsert (t : StateTable) (source : String) (ts : Time) {pk : String} (hpk : pk ≠ "") :
    (t.upsert ⟨source, ts, pk⟩).load source = ⟨source, ts, pk⟩ := by
  simp [StateTable.upsert, StateTable.load, hpk]

/-- The text of a key, for every key type.  It is valid input and denotes the
key exactly for the types other than `UUID`.  Distinct keys have distinct texts
and distinct trace ids.  The comparison of the next query with the persisted
text is accepted and is the order of the column, whatever that order is, unless
the type is `UUID`; then the query fails. -/
theorem key_text_round_trips (ty : KeyType) (k k' : ty.Key) :
    (ty.input (ty.goText k) = some k ↔ ty ≠ .uuid) ∧
    (ty.goText k = ty.goText k' → k = k') ∧
    (∀ table, traceID table (ty.goText k) = traceID table (ty.goText k') → k = k') ∧
    ∀ (_ : LinearOrder ty.Key) (states : StateTable) (source : String) (ts : Time),
      (ty ≠ .uuid → ∃ p, ty.after ((states.upsert ⟨source, ts, ty.goText k⟩).load source) = .ok p ∧
        ∀ v, p v = true ↔ ts < v.ts ∨ v.ts = ts ∧ k < v.pk) ∧
      (ty = .uuid → ty.after ((states.upsert ⟨source, ts, ty.goText k⟩).load source) =
        .error "query: invalid input syntax") := by
  have hinput := input_goText ty k
  refine ⟨?_, goText_injective ty, fun table h => ?_, fun _ states source ts => ?_⟩
  · rw [hinput]
    by_cases hty : ty = .uuid
    · simp [hty]
    · simp [hty]
  · exact goText_injective ty ((String.append_right_inj _).mp h)
  · rw [load_upsert states source ts (goText_ne_empty ty k)]
    simp only [KeyType.after, goText_ne_empty, if_false, hinput]
    refine ⟨fun hty => ?_, fun hty => ?_⟩
    · rw [if_neg hty]
      exact ⟨_, rfl, fun v => by simp⟩
    · rw [if_pos hty]

/-- The bytes of 123e4567-e89b-12d3-a456-426614174000. -/
def someUuid : Uuid :=
  ⟨[0x12, 0x3e, 0x45, 0x67, 0xe8, 0x9b, 0x12, 0xd3, 0xa4, 0x56, 0x42, 0x66, 0x14, 0x17, 0x40, 0x00],
    rfl⟩

/-- A `UUID` that the database reads in its usual form, and the text that
`Fetch` stores for it. -/
theorem uuid_text_rejected :
    KeyType.input .uuid "123e4567-e89b-12d3-a456-426614174000" = some someUuid ∧
    KeyType.goText .uuid someUuid = "[18 62 69 103 232 155 18 211 164 86 66 102 20 23 64 0]" ∧
    KeyType.input .uuid (KeyType.goText .uuid someUuid) = none := by
  refine ⟨?_, by decide +kernel, ?_⟩
  · show uuidIn "123e4567-e89b-12d3-a456-426614174000".toList = some someUuid
    decide +kernel
  · show uuidIn (KeyType.goText .uuid someUuid).toList = none
    decide +kernel

end ImgSync.Sniffer
