import Noeta.Lib.Framing
import Noeta.Packed.Schema

/-!
# The key of a compiled program in the startup cache

`KeyBuilder` of the cache crate collects what a compile depends on, and `finish` writes it into one text, whose SHA-256 names the file the bytecode is kept in. Two builders write the same text exactly if they were told the same, in whatever order.
-/

namespace Noeta.Startup

open Noeta.Lib.Framing Noeta.Packed

/-! ### Strings and vectors -/

/-- `isize::MAX`: no allocation is larger. -/
def isizeMax : Nat := 2 ^ 63 - 1

/-- The UTF-8 bytes of a string. -/
def bytesOf (s : String) : List UInt8 := s.toByteArray.data.toList

/-- A `String`. -/
structure Text where
  str : String
  fits : (bytesOf str).length ≤ isizeMax
deriving DecidableEq

namespace Text

def empty : Text := ⟨"", by decide⟩

def asBytes (t : Text) : List UInt8 := bytesOf t.str

/-- `String`'s order: that of the bytes. -/
def cmp (a b : Text) : Ordering := compare a.asBytes b.asBytes

end Text

/-- A `Vec`. -/
structure Vec (α : Type) where
  toList : List α
  fits : toList.length ≤ isizeMax

namespace Vec

variable {α : Type}

def new : Vec α := ⟨[], Nat.zero_le _⟩

/-- `Vec::push`; a full vector is a capacity overflow and the call does not return. -/
def push (v : Vec α) (a : α) : Option (Vec α) :=
  if h : v.toList.length < isizeMax then
    some ⟨v.toList ++ [a], by simp only [List.length_append, List.length_singleton]; omega⟩
  else none

theorem toList_push {v w : Vec α} {a : α} (h : v.push a = some w) : w.toList = v.toList ++ [a] := by
  unfold push at h
  split at h
  · cases h
    rfl
  · cases h

end Vec

/-- A SHA-256 digest. -/
structure Digest where
  bytes : List UInt8
  length : bytes.length = 32
deriving DecidableEq

/-! ### The builder -/

structure KeyBuilder where
  sources : Vec (Text × Digest)
  entry : Text
  runtimeVersion : Text
  binary : Text
  tiers : Vec Text

/-- `to_le_bytes` of a `u64`. -/
def u64Bytes (n : Nat) : List UInt8 := leBytes 8 (n % 2 ^ 64)

/-- Length-prefixed, domain-tagged field. -/
def field (tag : String) (data : List UInt8) : List UInt8 :=
  u64Bytes (bytesOf tag).length ++ bytesOf tag ++ u64Bytes data.length ++ data

/-- The order of the pairs `(String, Vec<u8>)`. -/
def cmpSource (a b : Text × Digest) : Ordering :=
  (a.1.cmp b.1).then (compare a.2.bytes b.2.bytes)

/-- What `finish` writes for one source. -/
def sourceFields (s : Text × Digest) : List UInt8 :=
  field "src-name" s.1.asBytes ++ field "src-hash" s.2.bytes

/-- What `finish` writes for one tier. -/
def tierField (t : Text) : List UInt8 := field "tier" t.asBytes

def hexDigit (n : UInt8) : Char := "0123456789abcdef".toList.getD n.toNat '0'

/-- Lowercase hex of a byte slice. -/
def hex (bytes : List UInt8) : String :=
  String.ofList (bytes.flatMap fun b : UInt8 => [hexDigit (b >>> 4), hexDigit (b &&& 0xf)])

structure CacheKey where
  asHex : String
deriving DecidableEq

/-- One call of a builder's methods. -/
inductive Call where
  | source (name : Text) (bytes : List UInt8)
  | entry (name : Text)
  | runtimeVersion (v : Text)
  | binaryIdentity (id : Text)
  | tier (t : Text)

namespace KeyBuilder

def new : KeyBuilder := ⟨Vec.new, Text.empty, Text.empty, Text.empty, Vec.new⟩

variable (sha256 : List UInt8 → Digest)

def call (b : KeyBuilder) : Call → Option KeyBuilder
  | .source name bytes => (b.sources.push (name, sha256 bytes)).map fun sources => { b with sources }
  | .entry name => some { b with entry := name }
  | .runtimeVersion v => some { b with runtimeVersion := v }
  | .binaryIdentity id => some { b with binary := id }
  | .tier t => (b.tiers.push t).map fun tiers => { b with tiers }

def calls (b : KeyBuilder) : List Call → Option KeyBuilder
  | [] => some b
  | c :: rest => (b.call sha256 c).bind fun b' => b'.calls rest

/-- The text `finish` feeds to the hash, after sorting. -/
def material (b : KeyBuilder) : List UInt8 :=
  let sources := sortBy cmpSource b.sources.toList
  let tiers := sortDedup Text.cmp b.tiers.toList
  bytesOf "noeta-cache-key-v1" ++ u64Bytes sources.length ++ sources.flatMap sourceFields ++
    field "entry" b.entry.asBytes ++ field "rt" b.runtimeVersion.asBytes ++ field "bin" b.binary.asBytes ++
    u64Bytes tiers.length ++ tiers.flatMap tierField

def finish (b : KeyBuilder) : CacheKey := ⟨hex (sha256 b.material).bytes⟩

end KeyBuilder

/-! ### What a sequence of calls says -/

section Inputs

variable (sha256 : List UInt8 → Digest)

/-- The sources named, each with its content's digest. -/
def sourcesOf (cs : List Call) : List (Text × Digest) :=
  cs.filterMap fun
    | .source name bytes => some (name, sha256 bytes)
    | _ => none

def tiersOf (cs : List Call) : List Text :=
  cs.filterMap fun
    | .tier t => some t
    | _ => none

def entriesOf (cs : List Call) : List Text :=
  cs.filterMap fun
    | .entry name => some name
    | _ => none

def versionsOf (cs : List Call) : List Text :=
  cs.filterMap fun
    | .runtimeVersion v => some v
    | _ => none

def binariesOf (cs : List Call) : List Text :=
  cs.filterMap fun
    | .binaryIdentity id => some id
    | _ => none

/-- The value of a field that each call overwrites. -/
def lastOr (t : Text) (ts : List Text) : Text := ts.getLast?.getD t

/-- Two sequences of calls describe one compile: the same sources equally often, the same entry, version and binary, the same set of tiers. -/
structure SameInputs (cs cs' : List Call) : Prop where
  sources : List.Perm (sourcesOf sha256 cs) (sourcesOf sha256 cs')
  entry : lastOr Text.empty (entriesOf cs) = lastOr Text.empty (entriesOf cs')
  version : lastOr Text.empty (versionsOf cs) = lastOr Text.empty (versionsOf cs')
  binary : lastOr Text.empty (binariesOf cs) = lastOr Text.empty (binariesOf cs')
  tiers : ∀ t, t ∈ tiersOf cs ↔ t ∈ tiersOf cs'

end Inputs

/-! ### The files -/

/-- The cache directory, the newest file first; storing under a name takes the place of what was there. -/
structure Cache where
  files : List (String × List UInt8)

namespace Cache

def pathFor (key : CacheKey) : String := key.asHex ++ ".noeb"

def load (c : Cache) (key : CacheKey) : Option (List UInt8) := c.files.lookup (pathFor key)

def store (c : Cache) (key : CacheKey) (blob : List UInt8) : Cache := ⟨(pathFor key, blob) :: c.files⟩

variable (sha256 : List UInt8 → Digest)

/-- A cache after compiles that were each stored under the key of their calls, the newest first. -/
def after : List (List Call × List UInt8) → Option Cache
  | [] => some ⟨[]⟩
  | (cs, blob) :: earlier =>
    (after earlier).bind fun c => (KeyBuilder.new.calls sha256 cs).map fun b => c.store (b.finish sha256) blob

/-- The bytecode a start with these calls is handed. -/
def served (c : Cache) (cs : List Call) : Option (List UInt8) :=
  (KeyBuilder.new.calls sha256 cs).bind fun b => c.load (b.finish sha256)

end Cache

/-! ### A run of calls collects what the calls say -/

section Runs

variable {sha256 : List UInt8 → Digest}

theorem lastOr_cons (t a : Text) (ts : List Text) : lastOr t (a :: ts) = lastOr a ts := by
  simp [lastOr, List.getLast?_cons]

theorem KeyBuilder.calls_eq {cs : List Call} {b b' : KeyBuilder} (h : b.calls sha256 cs = some b') :
    b'.sources.toList = b.sources.toList ++ sourcesOf sha256 cs ∧
      b'.entry = lastOr b.entry (entriesOf cs) ∧
      b'.runtimeVersion = lastOr b.runtimeVersion (versionsOf cs) ∧
      b'.binary = lastOr b.binary (binariesOf cs) ∧
      b'.tiers.toList = b.tiers.toList ++ tiersOf cs := by
  induction cs generalizing b with
  | nil =>
    cases h
    simp [sourcesOf, entriesOf, versionsOf, binariesOf, tiersOf, lastOr]
  | cons c cs ih =>
    obtain ⟨mid, hcall, hrest⟩ := Option.bind_eq_some_iff.mp h
    obtain ⟨hsources, hentry, hversion, hbinary, htiers⟩ := ih hrest
    rw [hsources, hentry, hversion, hbinary, htiers]
    cases c with
    | source name bytes | tier t =>
      obtain ⟨pushed, hpush, rfl⟩ := Option.map_eq_some_iff.mp hcall
      simp [sourcesOf, entriesOf, versionsOf, binariesOf, tiersOf, Vec.toList_push hpush]
    | entry name | runtimeVersion v | binaryIdentity id =>
      cases hcall
      simp [sourcesOf, entriesOf, versionsOf, binariesOf, tiersOf, lastOr_cons]

end Runs

/-! ### The text can be read back -/

theorem bytesOf_injective : Function.Injective bytesOf := by
  intro s t h
  apply String.toByteArray_inj.mp
  apply ByteArray.ext
  exact Array.toList_inj.mp h

theorem Text.asBytes_injective : Function.Injective Text.asBytes := by
  rintro ⟨s, hs⟩ ⟨t, ht⟩ h
  have hstr : s = t := bytesOf_injective h
  subst hstr
  rfl

theorem Digest.bytes_injective : Function.Injective Digest.bytes := by
  rintro ⟨l, hl⟩ ⟨m, hm⟩ h
  cases h
  rfl

theorem u64Bytes_cut ⦃m n : Nat⦄ ⦃s s' : List UInt8⦄ (hm : m < 2 ^ 64) (hn : n < 2 ^ 64)
    (h : u64Bytes m ++ s = u64Bytes n ++ s') : m = n ∧ s = s' := by
  have hlen : (u64Bytes m).length = (u64Bytes n).length := by simp [u64Bytes, length_leBytes]
  obtain ⟨hword, hrest⟩ := List.append_inj h hlen
  refine ⟨?_, hrest⟩
  rw [u64Bytes, u64Bytes, Nat.mod_eq_of_lt hm, Nat.mod_eq_of_lt hn] at hword
  rw [← readLoop_full m 8 hm, hword, readLoop_full n 8 hn]

theorem field_cut {tag : String} {data data' s s' : List UInt8} (hd : data.length < 2 ^ 64)
    (hd' : data'.length < 2 ^ 64) (h : field tag data ++ s = field tag data' ++ s') :
    data = data' ∧ s = s' := by
  simp only [field, List.append_assoc, List.append_cancel_left_eq] at h
  obtain ⟨hlen, hrest⟩ := u64Bytes_cut hd hd' h
  exact List.append_inj hrest hlen

theorem Text.length_lt (t : Text) : t.asBytes.length < 2 ^ 64 := by
  have h := t.fits
  simp only [isizeMax] at h
  simp only [Text.asBytes]
  omega

theorem Digest.length_lt (d : Digest) : d.bytes.length < 2 ^ 64 := by
  rw [d.length]
  decide

theorem Vec.length_lt {α : Type} (v : Vec α) : v.toList.length < 2 ^ 64 := by
  have h := v.fits
  simp only [isizeMax] at h
  omega

theorem text_field (tag : String) : SelfDelimiting fun t : Text => field tag t.asBytes := by
  intro t t' s s' h
  obtain ⟨hbytes, hrest⟩ := field_cut t.length_lt t'.length_lt h
  exact ⟨Text.asBytes_injective hbytes, hrest⟩

theorem digest_field (tag : String) : SelfDelimiting fun d : Digest => field tag d.bytes := by
  intro d d' s s' h
  obtain ⟨hbytes, hrest⟩ := field_cut d.length_lt d'.length_lt h
  exact ⟨Digest.bytes_injective hbytes, hrest⟩

theorem source_fields : SelfDelimiting sourceFields :=
  (text_field "src-name").pair (digest_field "src-hash")

instance : Std.TransCmp Text.cmp :=
  inferInstanceAs (Std.TransCmp (compareOn Text.asBytes))

instance : Std.LawfulEqCmp Text.cmp where
  eq_of_compare h := Text.asBytes_injective (Std.LawfulEqOrd.eq_of_compare h)

instance : Std.TransCmp cmpSource :=
  inferInstanceAs (Std.TransCmp (compareLex (compareOn fun a : Text × Digest => a.1.asBytes)
    (compareOn fun a : Text × Digest => a.2.bytes)))

instance : Std.LawfulEqCmp cmpSource where
  compare_self := Std.ReflCmp.compare_self
  eq_of_compare := by
    rintro ⟨t, d⟩ ⟨t', d'⟩ h
    obtain ⟨hname, hdigest⟩ := Ordering.then_eq_eq.mp h
    have htext : t = t' := Std.LawfulEqCmp.eq_of_compare hname
    have hbytes : d.bytes = d'.bytes := Std.LawfulEqOrd.eq_of_compare hdigest
    rw [htext, Digest.bytes_injective hbytes]

theorem KeyBuilder.material_eq_iff (b b' : KeyBuilder) :
    b.material = b'.material ↔
      List.Perm b.sources.toList b'.sources.toList ∧ b.entry = b'.entry ∧
        b.runtimeVersion = b'.runtimeVersion ∧ b.binary = b'.binary ∧
        ∀ t, t ∈ b.tiers.toList ↔ t ∈ b'.tiers.toList := by
  rw [← sortBy_eq_iff cmpSource, ← sortDedup_eq_iff Text.cmp]
  constructor
  · intro h
    simp only [KeyBuilder.material, List.append_assoc, List.append_cancel_left_eq] at h
    have hcount : ∀ v : Vec (Text × Digest), (sortBy cmpSource v.toList).length < 2 ^ 64 := fun v => by
      rw [length_sortBy]
      exact v.length_lt
    have htierCount : ∀ v : Vec Text, (sortDedup Text.cmp v.toList).length < 2 ^ 64 := fun v =>
      Nat.lt_of_le_of_lt (length_sortDedup_le Text.cmp v.toList) v.length_lt
    -- the groups are cut off one after the other, each with its count or its length before it
    obtain ⟨hsources, h⟩ := source_fields.counted u64Bytes_cut (hcount b.sources) (hcount b'.sources) h
    obtain ⟨hentry, h⟩ := text_field "entry" h
    obtain ⟨hversion, h⟩ := text_field "rt" h
    obtain ⟨hbinary, h⟩ := text_field "bin" h
    have hlast : u64Bytes (sortDedup Text.cmp b.tiers.toList).length ++
          ((sortDedup Text.cmp b.tiers.toList).flatMap tierField ++ []) =
        u64Bytes (sortDedup Text.cmp b'.tiers.toList).length ++
          ((sortDedup Text.cmp b'.tiers.toList).flatMap tierField ++ []) := by
      simpa only [List.append_nil] using h
    obtain ⟨htiers, -⟩ :=
      (text_field "tier").counted u64Bytes_cut (htierCount b.tiers) (htierCount b'.tiers) hlast
    exact ⟨hsources, hentry, hversion, hbinary, htiers⟩
  · rintro ⟨hsources, hentry, hversion, hbinary, htiers⟩
    simp only [KeyBuilder.material, hsources, hentry, hversion, hbinary, htiers]

/-! ### Keys -/

theorem hexDigit_injective {m n : UInt8} (hm : m.toNat < 16) (hn : n.toNat < 16)
    (h : hexDigit m = hexDigit n) : m = n := by
  have htable : ∀ i < 16, ∀ j < 16, "0123456789abcdef".toList.getD i '0' =
      "0123456789abcdef".toList.getD j '0' → i = j := by decide
  exact UInt8.toNat_inj.mp (htable _ hm _ hn h)

theorem hexDigits_delimit : SelfDelimiting fun b : UInt8 => [hexDigit (b >>> 4), hexDigit (b &&& 0xf)] := by
  apply selfDelimiting_of_length 2
  · intro b
    rfl
  · intro a b h
    have hhigh : ∀ c : UInt8, (c >>> 4).toNat = c.toNat / 16 := fun c => by
      simp [UInt8.toNat_shiftRight, Nat.shiftRight_eq_div_pow]
    have hlow : ∀ c : UInt8, (c &&& 0xf).toNat = c.toNat % 16 := fun c => by
      rw [UInt8.toNat_and]
      exact Nat.and_two_pow_sub_one_eq_mod c.toNat 4
    have hhighLt : ∀ c : UInt8, (c >>> 4).toNat < 16 := fun c => by
      have hbyte := c.toNat_lt
      rw [hhigh]
      omega
    have hlowLt : ∀ c : UInt8, (c &&& 0xf).toNat < 16 := fun c => by
      rw [hlow]
      omega
    simp only [List.cons.injEq, and_true] at h
    have hupper := congrArg UInt8.toNat (hexDigit_injective (hhighLt a) (hhighLt b) h.1)
    have hlower := congrArg UInt8.toNat (hexDigit_injective (hlowLt a) (hlowLt b) h.2)
    rw [hhigh, hhigh] at hupper
    rw [hlow, hlow] at hlower
    apply UInt8.toNat_inj.mp
    omega

theorem hex_injective {d d' : Digest} (h : hex d.bytes = hex d'.bytes) : d = d' := by
  have hchars := String.ofList_inj.mp h
  have hend : ∀ l : List Char, l = l ++ [] := fun l => (List.append_nil l).symm
  rw [hend (List.flatMap _ d.bytes), hend (List.flatMap _ d'.bytes)] at hchars
  have hlen : d.bytes.length = d'.bytes.length := by rw [d.length, d'.length]
  exact Digest.bytes_injective (hexDigits_delimit.rows hlen hchars).1

theorem KeyBuilder.finish_eq_iff {sha256 : List UInt8 → Digest} {b b' : KeyBuilder} :
    b.finish sha256 = b'.finish sha256 ↔ sha256 b.material = sha256 b'.material := by
  constructor
  · intro h
    exact hex_injective (congrArg CacheKey.asHex h)
  · intro h
    simp only [KeyBuilder.finish, h]

theorem Cache.pathFor_injective {key key' : CacheKey} (h : pathFor key = pathFor key') : key = key' := by
  have hchars := congrArg String.toList h
  simp only [pathFor, String.toList_append] at hchars
  have hhex : key.asHex = key'.asHex := String.toList_inj.mp (List.append_cancel_right hchars)
  cases key
  cases key'
  cases hhex
  rfl

section Faithful

variable {sha256 : List UInt8 → Digest}

theorem material_eq_iff_sameInputs {cs cs' : List Call} {b b' : KeyBuilder}
    (h : KeyBuilder.new.calls sha256 cs = some b) (h' : KeyBuilder.new.calls sha256 cs' = some b') :
    b.material = b'.material ↔ SameInputs sha256 cs cs' := by
  obtain ⟨hsources, hentry, hversion, hbinary, htiers⟩ := KeyBuilder.calls_eq h
  obtain ⟨hsources', hentry', hversion', hbinary', htiers'⟩ := KeyBuilder.calls_eq h'
  rw [KeyBuilder.material_eq_iff, hsources, hsources', hentry, hentry', hversion, hversion', hbinary,
    hbinary', htiers, htiers']
  constructor
  · rintro ⟨h1, h2, h3, h4, h5⟩
    exact ⟨h1, h2, h3, h4, h5⟩
  · rintro ⟨h1, h2, h3, h4, h5⟩
    exact ⟨h1, h2, h3, h4, h5⟩

/-- The hash tells apart the texts of the runs of calls in a list. -/
def NoCollision (sha256 : List UInt8 → Digest) (runs : List (List Call)) : Prop :=
  ∀ cs ∈ runs, ∀ cs' ∈ runs, ∀ b b', KeyBuilder.new.calls sha256 cs = some b →
    KeyBuilder.new.calls sha256 cs' = some b' → sha256 b.material = sha256 b'.material →
    b.material = b'.material

theorem finish_eq_iff_sameInputs {runs : List (List Call)} (hfree : NoCollision sha256 runs)
    {cs cs' : List Call} (hcs : cs ∈ runs) (hcs' : cs' ∈ runs) {b b' : KeyBuilder}
    (h : KeyBuilder.new.calls sha256 cs = some b) (h' : KeyBuilder.new.calls sha256 cs' = some b') :
    b.finish sha256 = b'.finish sha256 ↔ SameInputs sha256 cs cs' := by
  rw [KeyBuilder.finish_eq_iff, ← material_eq_iff_sameInputs h h']
  constructor
  · exact hfree cs hcs cs' hcs' b b' h h'
  · intro hsame
    rw [hsame]

/-- What a start is handed was compiled from the same inputs. -/
theorem served_sameInputs {history : List (List Call × List UInt8)} {cs : List Call} {c : Cache}
    {blob : List UInt8} (hfree : NoCollision sha256 (cs :: history.map Prod.fst))
    (hc : Cache.after sha256 history = some c) (hserved : c.served sha256 cs = some blob) :
    ∃ cs', (cs', blob) ∈ history ∧ SameInputs sha256 cs' cs := by
  obtain ⟨b, hb, hload⟩ := Option.bind_eq_some_iff.mp hserved
  induction history generalizing c with
  | nil =>
    cases hc
    simp [Cache.load] at hload
  | cons entry earlier ih =>
    obtain ⟨cs', stored⟩ := entry
    obtain ⟨before, hbefore, hstore⟩ := Option.bind_eq_some_iff.mp hc
    obtain ⟨b', hb', rfl⟩ := Option.map_eq_some_iff.mp hstore
    by_cases hkey : b.finish sha256 = b'.finish sha256
    · rw [hkey] at hload
      simp only [Cache.load, Cache.store, List.lookup_cons_self, Option.some.injEq] at hload
      subst hload
      refine ⟨cs', List.mem_cons_self, ?_⟩
      exact (finish_eq_iff_sameInputs hfree (by simp) (by simp) hb' hb).mp hkey.symm
    · have hpath : (Cache.pathFor (b.finish sha256) == Cache.pathFor (b'.finish sha256)) = false := by
        rw [beq_eq_false_iff_ne]
        intro hsame
        exact hkey (Cache.pathFor_injective hsame)
      simp only [Cache.load, Cache.store, List.lookup_cons, hpath] at hload
      have hfree' : NoCollision sha256 (cs :: earlier.map Prod.fst) := by
        intro d hd d' hd'
        apply hfree
        · simp only [List.map_cons, List.mem_cons] at hd ⊢
          tauto
        · simp only [List.map_cons, List.mem_cons] at hd' ⊢
          tauto
      have hserved' : before.served sha256 cs = some blob := Option.bind_eq_some_iff.mpr ⟨b, hb, hload⟩
      obtain ⟨found, hfound, hsame⟩ := ih hfree' hbefore hserved' hload
      exact ⟨found, List.mem_cons_of_mem _ hfound, hsame⟩

end Faithful

/-- The key is a faithful fingerprint of what the calls say. Two runs of calls feed the hash the same text exactly if they name the same sources equally often, the same entry, version and binary and the same set of tiers; where the hash tells the texts at hand apart their keys are equal exactly then, and no start is handed bytecode that was stored for other inputs. -/
theorem key_faithful (sha256 : List UInt8 → Digest) {cs cs' : List Call} {b b' : KeyBuilder}
    (h : KeyBuilder.new.calls sha256 cs = some b) (h' : KeyBuilder.new.calls sha256 cs' = some b') :
    (b.material = b'.material ↔ SameInputs sha256 cs cs') ∧
      (NoCollision sha256 [cs, cs'] → (b.finish sha256 = b'.finish sha256 ↔ SameInputs sha256 cs cs')) ∧
      ∀ history c blob, NoCollision sha256 (cs :: history.map Prod.fst) →
        Cache.after sha256 history = some c → c.served sha256 cs = some blob →
        ∃ earlier, (earlier, blob) ∈ history ∧ SameInputs sha256 earlier cs := by
  refine ⟨material_eq_iff_sameInputs h h', ?_, ?_⟩
  · intro hfree
    exact finish_eq_iff_sameInputs hfree (by simp) (by simp) h h'
  · intro history c blob hfree hc hserved
    exact served_sameInputs hfree hc hserved

/-- SHA-256 on the texts of a builder that was only told its entry, `a` or `b`; the entry's name is the byte at 47. -/
def entryDigest (text : List UInt8) : Digest :=
  if text.getD 47 0 = 97 then
    ⟨[190, 226, 91, 97, 72, 61, 25, 31, 63, 150, 139, 138, 190, 114, 235, 128, 10, 174, 17, 143, 244,
      156, 45, 49, 209, 19, 32, 132, 177, 237, 81, 67], by decide⟩
  else
    ⟨[207, 15, 174, 14, 160, 127, 100, 151, 29, 26, 93, 124, 3, 76, 39, 130, 232, 85, 223, 198, 27, 10,
      119, 227, 95, 248, 68, 167, 136, 236, 153, 140], by decide⟩

/-- A builder that was only told its entry. -/
def entryOnly (t : Text) : KeyBuilder := { KeyBuilder.new with entry := t }

def textA : Text := ⟨"a", by decide⟩

def textB : Text := ⟨"b", by decide⟩

theorem key_faithful_entries :
    ((entryOnly textA).material = (entryOnly textB).material ↔
        SameInputs entryDigest [.entry textA] [.entry textB]) ∧
      (NoCollision entryDigest [[.entry textA], [.entry textB]] →
        ((entryOnly textA).finish entryDigest = (entryOnly textB).finish entryDigest ↔
          SameInputs entryDigest [.entry textA] [.entry textB])) ∧
      ∀ history c blob, NoCollision entryDigest ([.entry textA] :: history.map Prod.fst) →
        Cache.after entryDigest history = some c → c.served entryDigest [.entry textA] = some blob →
        ∃ earlier, (earlier, blob) ∈ history ∧ SameInputs entryDigest earlier [.entry textA] :=
  key_faithful entryDigest rfl rfl

/-- The two texts are told apart, so the second start misses. -/
example : (entryOnly textA).finish entryDigest ≠ (entryOnly textB).finish entryDigest := by
  simp only [KeyBuilder.finish, KeyBuilder.material, entryOnly, KeyBuilder.new, Vec.new, sortBy,
    sortDedup, List.mergeSort_nil, List.destutter_nil]
  decide +kernel

end Noeta.Startup
