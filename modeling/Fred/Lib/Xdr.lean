/-
# Fred.Lib.Xdr -- marshaling of structured data in XDR

RFC 4506 over lists of bytes, with the checks of a reader that works on a buffer: a value is read from
the front of what is left, padding has to be zero, and a whole message has to be used up. `Codec` is a
type together with its marshaling and the four facts that make it one: what is written is read back,
what is read was written (so an encoding is unique), its length is known and a multiple of four, and a
reader whose rest is a multiple of four never looks past its end. The constructions below keep the four
facts, so a format is described by composing them and nothing is left to prove about it.
-/
import Fred.Lib.BigEndian
import Fred.Lib.Opaque

namespace Fred.Xdr

open Opaque

/-- What a reader throws. `outOfBounds` is a read past the end of the buffer, which no check stops. -/
inductive Exn where
  | overflow
  | shouldBeZero
  | badMessageSize
  | badDiscriminant
  | outOfBounds
  deriving DecidableEq, Repr

/-- Reads a value from the front of what is left. -/
abbrev Get (α : Type*) := List UInt8 → Except Exn (α × List UInt8)

/-- `get32` after its check. -/
def getWord : Get ℕ := fun bs =>
  match get32 bs with
  | none => .error .overflow
  | some r => .ok r

/-- `get_bytes` of `n` bytes that have been checked to be there. -/
def getBytes (n : ℕ) : Get (List UInt8) := fun bs =>
  if bs.length < n + (padding n).length then .error .outOfBounds
  else if (bs.drop n).take (padding n).length ≠ padding n then .error .shouldBeZero
  else .ok (bs.take n, bs.drop (n + (padding n).length))

/-- `n` values one after another. -/
def getMany {α : Type*} (get : Get α) : ℕ → Get (List α)
  | 0, bs => .ok ([], bs)
  | n + 1, bs =>
    match get bs with
    | .error e => .error e
    | .ok (a, rest) =>
      match getMany get n rest with
      | .error e => .error e
      | .ok (as, rest) => .ok (a :: as, rest)

/-! ## Words and bytes -/

theorem length_padding (n : ℕ) : (padding n).length = (4 - n % 4) % 4 := List.length_replicate

theorem dvd_padded (n : ℕ) : 4 ∣ n + (padding n).length := by
  rw [length_padding]
  omega

/-- Four bytes are the word they stand for. -/
theorem put32_of_get32 {bs rest : List UInt8} {n : ℕ} (h : get32 bs = some (n, rest)) :
    bs = put32 n ++ rest := by
  unfold get32 at h
  split at h
  · rename_i a b c d rest'
    obtain ⟨hn, rfl⟩ := Prod.mk.inj (Option.some.inj h)
    have ha := a.toNat_lt
    have hb := b.toNat_lt
    have hc := c.toNat_lt
    have hd := d.toNat_lt
    have byte : ∀ (x : UInt8) (m : ℕ), m % 256 = x.toNat → UInt8.ofNat m = x := by
      intro x m hm
      apply UInt8.toNat_inj.mp
      rw [UInt8.toNat_ofNat']
      exact hm
    unfold put32
    rw [byte a (n / 2 ^ 24) (by omega), byte b (n / 2 ^ 16) (by omega), byte c (n / 2 ^ 8) (by omega),
      byte d n (by omega)]
    rfl
  · cases h

theorem getWord_put32 {n : ℕ} (hn : n < 2 ^ 32) (rest : List UInt8) :
    getWord (put32 n ++ rest) = .ok (n, rest) := by
  unfold getWord
  rw [get32_put32 hn]

theorem put32_of_getWord {bs rest : List UInt8} {n : ℕ} (h : getWord bs = .ok (n, rest)) :
    n < 2 ^ 32 ∧ bs = put32 n ++ rest := by
  unfold getWord at h
  split at h
  · cases h
  · rename_i r hr
    obtain rfl := Except.ok.inj h
    exact ⟨(get32_eq_some hr).1, put32_of_get32 hr⟩

theorem getBytes_padded {bytes : List UInt8} (rest : List UInt8) :
    getBytes bytes.length (bytes ++ padding bytes.length ++ rest) = .ok (bytes, rest) := by
  unfold getBytes
  rw [if_neg, if_neg]
  · simp [List.append_assoc, List.drop_append]
  · simp [List.append_assoc]
  · simp only [List.length_append, not_lt]
    omega

theorem padded_of_getBytes {n : ℕ} {bs bytes rest : List UInt8}
    (h : getBytes n bs = .ok (bytes, rest)) :
    bytes.length = n ∧ bs = bytes ++ padding n ++ rest := by
  unfold getBytes at h
  split_ifs at h with hlen hpad
  obtain ⟨rfl, rfl⟩ := Prod.mk.inj (Except.ok.inj h)
  have hpad := not_not.mp hpad
  refine ⟨by rw [List.length_take]; omega, ?_⟩
  rw [← List.drop_drop]
  calc bs = bs.take n ++ bs.drop n := (List.take_append_drop n bs).symm
    _ = bs.take n ++ ((bs.drop n).take (padding n).length ++
        (bs.drop n).drop (padding n).length) := by rw [List.take_append_drop (padding n).length]
    _ = bs.take n ++ padding n ++ (bs.drop n).drop (padding n).length := by
        rw [hpad, List.append_assoc]

/-- Where the check has passed and the rest is a multiple of four, the padding is there as well. -/
theorem getBytes_safe {n : ℕ} {bs : List UInt8} (hbs : 4 ∣ bs.length) (hn : n ≤ bs.length) :
    getBytes n bs ≠ .error .outOfBounds := by
  unfold getBytes
  rw [if_neg]
  · split_ifs <;> simp
  · have hpad := dvd_padded n
    have hsmall : (padding n).length < 4 := by
      rw [length_padding]
      omega
    omega

/-! ## Codecs -/

/-- A type with its marshaling. -/
structure Codec (α : Type*) where
  /-- The values that can be marshaled. -/
  Fits : α → Prop
  /-- `serial_size`. -/
  size : α → ℕ
  put : α → List UInt8
  get : Get α
  length_put : ∀ a, (put a).length = size a
  aligned : ∀ a, 4 ∣ size a
  get_put : ∀ {a} rest, Fits a → get (put a ++ rest) = .ok (a, rest)
  put_get : ∀ {bs a rest}, get bs = .ok (a, rest) → Fits a ∧ bs = put a ++ rest
  safe : ∀ {bs}, 4 ∣ bs.length → get bs ≠ .error .outOfBounds

namespace Codec

variable {α β : Type*}

/-- What is left after a value is a multiple of four if what there was is. -/
theorem dvd_rest (c : Codec α) {bs rest : List UInt8} {a : α} (h : c.get bs = .ok (a, rest))
    (hbs : 4 ∣ bs.length) : 4 ∣ rest.length := by
  obtain ⟨-, rfl⟩ := c.put_get h
  rw [List.length_append, c.length_put] at hbs
  exact (Nat.dvd_add_right (c.aligned a)).mp hbs

/-! ### Words -/

def uint32 : Codec ℕ where
  Fits := fun n => n < 2 ^ 32
  size := fun _ => 4
  put := put32
  get := getWord
  length_put := fun _ => rfl
  aligned := fun _ => dvd_rfl
  get_put := fun rest hn => getWord_put32 hn rest
  put_get := put32_of_getWord
  safe := by
    intro bs _ h
    unfold getWord at h
    split at h
    · cases h
    · cases h

/-! ### Opaque data -/

/-- `opaque x[n]`. -/
def opaqueArray (n : ℕ) : Codec (List UInt8) where
  Fits := fun bytes => bytes.length = n
  size := fun bytes => bytes.length + (padding bytes.length).length
  put := fun bytes => bytes ++ padding bytes.length
  get := fun bs => if bs.length < n then .error .overflow else getBytes n bs
  length_put := fun bytes => List.length_append
  aligned := fun bytes => dvd_padded bytes.length
  get_put := by
    rintro bytes rest rfl
    rw [if_neg, getBytes_padded]
    simp only [List.length_append, not_lt]
    omega
  put_get := by
    intro bs bytes rest h
    split_ifs at h
    obtain ⟨rfl, hbs⟩ := padded_of_getBytes h
    exact ⟨rfl, hbs⟩
  safe := by
    intro bs hbs
    split_ifs with hlen
    · simp
    · exact getBytes_safe hbs (not_lt.mp hlen)

/-- `opaque x<max>`. -/
def opaqueVec (max : ℕ) (hmax : max < 2 ^ 32) : Codec (List UInt8) where
  Fits := fun bytes => bytes.length ≤ max
  size := fun bytes => 4 + (bytes.length + (padding bytes.length).length)
  put := fun bytes => put32 bytes.length ++ (bytes ++ padding bytes.length)
  get := fun bs =>
    match getWord bs with
    | .error e => .error e
    | .ok (size, bs) =>
      if bs.length < size then .error .overflow
      else if size > max then .error .overflow
      else getBytes size bs
  length_put := fun bytes => by simp [put32]; omega
  aligned := fun bytes => Nat.dvd_add dvd_rfl (dvd_padded bytes.length)
  get_put := by
    intro bytes rest hfits
    rw [List.append_assoc, getWord_put32 (lt_of_le_of_lt hfits hmax)]
    dsimp only
    rw [if_neg, if_neg (not_lt.mpr hfits), getBytes_padded]
    simp only [List.length_append, not_lt]
    omega
  put_get := by
    intro bs bytes rest h
    split at h
    · cases h
    · rename_i size bs' hword
      obtain ⟨-, rfl⟩ := put32_of_getWord hword
      split_ifs at h with hlen hsize
      obtain ⟨rfl, rfl⟩ := padded_of_getBytes h
      exact ⟨not_lt.mp hsize, by simp⟩
  safe := by
    intro bs hbs
    split
    · rename_i e he
      intro h
      obtain rfl := Except.error.inj h
      exact uint32.safe hbs he
    · rename_i size bs' hword
      have hrest := uint32.dvd_rest hword hbs
      split_ifs with hlen hsize
      · simp
      · simp
      · exact getBytes_safe hrest (not_lt.mp hlen)

/-! ### Structures -/

/-- Two fields one after another. -/
def pair (c : Codec α) (d : Codec β) : Codec (α × β) where
  Fits := fun x => c.Fits x.1 ∧ d.Fits x.2
  size := fun x => c.size x.1 + d.size x.2
  put := fun x => c.put x.1 ++ d.put x.2
  get := fun bs =>
    match c.get bs with
    | .error e => .error e
    | .ok (a, rest) =>
      match d.get rest with
      | .error e => .error e
      | .ok (b, rest) => .ok ((a, b), rest)
  length_put := fun x => by rw [List.length_append, c.length_put, d.length_put]
  aligned := fun x => Nat.dvd_add (c.aligned x.1) (d.aligned x.2)
  get_put := by
    rintro ⟨a, b⟩ rest ⟨ha, hb⟩
    rw [List.append_assoc, c.get_put _ ha]
    dsimp only
    rw [d.get_put _ hb]
  put_get := by
    rintro bs ⟨a, b⟩ rest h
    split at h
    · cases h
    · rename_i a' rest' hc
      split at h
      · cases h
      · rename_i b' rest'' hd
        obtain ⟨hab, rfl⟩ := Prod.mk.inj (Except.ok.inj h)
        obtain ⟨rfl, rfl⟩ := Prod.mk.inj hab
        obtain ⟨ha, rfl⟩ := c.put_get hc
        obtain ⟨hb, rfl⟩ := d.put_get hd
        exact ⟨⟨ha, hb⟩, by rw [List.append_assoc]⟩
  safe := by
    intro bs hbs
    split
    · rename_i e he
      intro h
      obtain rfl := Except.error.inj h
      exact c.safe hbs he
    · rename_i a rest hc
      have hrest := c.dvd_rest hc hbs
      split
      · rename_i e he
        intro h
        obtain rfl := Except.error.inj h
        exact d.safe hrest he
      · simp

/-- The same marshaling for a type whose values stand for those of another. -/
def map (c : Codec α) (f : α → β) (g : β → α) (hfg : ∀ b, f (g b) = b)
    (hgf : ∀ a, c.Fits a → g (f a) = a) : Codec β where
  Fits := fun b => c.Fits (g b)
  size := fun b => c.size (g b)
  put := fun b => c.put (g b)
  get := fun bs =>
    match c.get bs with
    | .error e => .error e
    | .ok (a, rest) => .ok (f a, rest)
  length_put := fun b => c.length_put (g b)
  aligned := fun b => c.aligned (g b)
  get_put := by
    intro b rest hb
    rw [c.get_put rest hb]
    dsimp only
    rw [hfg]
  put_get := by
    intro bs b rest h
    split at h
    · cases h
    · rename_i a rest' hc
      obtain ⟨rfl, rfl⟩ := Prod.mk.inj (Except.ok.inj h)
      obtain ⟨ha, rfl⟩ := c.put_get hc
      rw [hgf a ha]
      exact ⟨ha, rfl⟩
  safe := by
    intro bs hbs
    split
    · rename_i e he
      intro h
      obtain rfl := Except.error.inj h
      exact c.safe hbs he
    · simp

/-! ### Unions -/

/-- Nothing at all. -/
def void : Codec Unit where
  Fits := fun _ => True
  size := fun _ => 0
  put := fun _ => []
  get := fun bs => .ok ((), bs)
  length_put := fun _ => rfl
  aligned := fun _ => dvd_zero 4
  get_put := fun _ _ => rfl
  put_get := by
    intro bs a rest h
    obtain ⟨-, rfl⟩ := Prod.mk.inj (Except.ok.inj h)
    exact ⟨trivial, rfl⟩
  safe := by simp

/-- The values of one case of a type. -/
def case (c : Codec α) (f : α → β) (g : β → Option α) (hfg : ∀ a b, g b = some a ↔ b = f a) : Codec β where
  Fits := fun b => ∃ a, g b = some a ∧ c.Fits a
  size := fun b => ((g b).map c.size).getD 0
  put := fun b => ((g b).map c.put).getD []
  get := fun bs =>
    match c.get bs with
    | .error e => .error e
    | .ok (a, rest) => .ok (f a, rest)
  length_put := fun b => by
    cases g b with
    | none => rfl
    | some a => exact c.length_put a
  aligned := fun b => by
    cases g b with
    | none => exact dvd_zero 4
    | some a => exact c.aligned a
  get_put := by
    rintro b rest ⟨a, ha, hfits⟩
    rw [ha, Option.map_some, Option.getD_some, c.get_put rest hfits, (hfg a b).mp ha]
  put_get := by
    intro bs b rest h
    split at h
    · cases h
    · rename_i a rest' hc
      obtain ⟨rfl, rfl⟩ := Prod.mk.inj (Except.ok.inj h)
      obtain ⟨ha, rfl⟩ := c.put_get hc
      have hg := (hfg a (f a)).mpr rfl
      exact ⟨⟨a, hg, ha⟩, by rw [hg, Option.map_some, Option.getD_some]⟩
  safe := by
    intro bs hbs
    split
    · rename_i e he
      intro h
      obtain rfl := Except.error.inj h
      exact c.safe hbs he
    · simp

theorem tag_of_case {c : Codec α} {f : α → β} {g : β → Option α} {hfg : ∀ a b, g b = some a ↔ b = f a}
    {tag : β → ℕ} {n : ℕ} (h : ∀ a, tag (f a) = n) (b : β) (hb : (c.case f g hfg).Fits b) :
    tag b = n := by
  obtain ⟨a, ha, -⟩ := hb
  rw [(hfg a b).mp ha]
  exact h a

/-- `union switch (tag)`: the discriminant, and what its case says. -/
def union (tag : β → ℕ) (cases : ℕ → Option (Codec β))
    (htag : ∀ n c, cases n = some c → ∀ b, c.Fits b → tag b = n) : Codec β where
  Fits := fun b => tag b < 2 ^ 32 ∧ ∃ c, cases (tag b) = some c ∧ c.Fits b
  size := fun b => 4 + ((cases (tag b)).map fun c => c.size b).getD 0
  put := fun b => put32 (tag b) ++ ((cases (tag b)).map fun c => c.put b).getD []
  get := fun bs =>
    match getWord bs with
    | .error e => .error e
    | .ok (n, bs) =>
      match cases n with
      | none => .error .badDiscriminant
      | some c => c.get bs
  length_put := fun b => by
    rw [List.length_append]
    cases cases (tag b) with
    | none => rfl
    | some c => exact congrArg (4 + ·) (c.length_put b)
  aligned := fun b => by
    cases cases (tag b) with
    | none => exact dvd_rfl
    | some c => exact Nat.dvd_add dvd_rfl (c.aligned b)
  get_put := by
    rintro b rest ⟨hlt, c, hc, hfits⟩
    rw [List.append_assoc, getWord_put32 hlt]
    dsimp only
    rw [hc, Option.map_some, Option.getD_some]
    exact c.get_put rest hfits
  put_get := by
    intro bs b rest h
    split at h
    · cases h
    · rename_i n bs' hword
      obtain ⟨hlt, rfl⟩ := put32_of_getWord hword
      split at h
      · cases h
      · rename_i c hc
        obtain ⟨hfits, rfl⟩ := c.put_get h
        obtain rfl := htag n c hc b hfits
        exact ⟨⟨hlt, c, hc, hfits⟩, by rw [hc, Option.map_some, Option.getD_some, List.append_assoc]⟩
  safe := by
    intro bs hbs
    split
    · rename_i e he
      intro h
      obtain rfl := Except.error.inj h
      exact uint32.safe hbs he
    · rename_i n bs' hword
      split
      · simp
      · rename_i c hc
        exact c.safe (uint32.dvd_rest hword hbs)

/-! ### Vectors -/

section
variable (c : Codec α)

def putMany (as : List α) : List UInt8 := as.flatMap c.put

theorem length_putMany (as : List α) : (c.putMany as).length = (as.map c.size).sum := by
  unfold putMany
  induction as with
  | nil => rfl
  | cons a as ih =>
      rw [List.flatMap_cons, List.length_append, ih, c.length_put, List.map_cons, List.sum_cons]

theorem dvd_sum_size (as : List α) : 4 ∣ (as.map c.size).sum := by
  induction as with
  | nil => exact dvd_zero 4
  | cons a as ih =>
      rw [List.map_cons, List.sum_cons]
      exact Nat.dvd_add (c.aligned a) ih

theorem getMany_putMany {as : List α} (has : ∀ a ∈ as, c.Fits a) (rest : List UInt8) :
    getMany c.get as.length (c.putMany as ++ rest) = .ok (as, rest) := by
  induction as with
  | nil => rfl
  | cons a as ih =>
      have htail := ih fun b hb => has b (List.mem_cons_of_mem _ hb)
      unfold putMany at htail ⊢
      rw [List.flatMap_cons, List.append_assoc, List.length_cons, getMany,
        c.get_put _ (has a List.mem_cons_self)]
      dsimp only
      rw [htail]

theorem putMany_of_getMany {n : ℕ} : ∀ {bs rest : List UInt8} {as : List α},
    getMany c.get n bs = .ok (as, rest) →
      as.length = n ∧ (∀ a ∈ as, c.Fits a) ∧ bs = c.putMany as ++ rest := by
  induction n with
  | zero =>
      intro bs rest as h
      obtain ⟨rfl, rfl⟩ := Prod.mk.inj (Except.ok.inj h)
      exact ⟨rfl, by simp, rfl⟩
  | succ n ih =>
      intro bs rest as h
      unfold getMany at h
      split at h
      · cases h
      · rename_i a rest' hc
        split at h
        · cases h
        · rename_i as' rest'' hmany
          obtain ⟨rfl, rfl⟩ := Prod.mk.inj (Except.ok.inj h)
          obtain ⟨ha, rfl⟩ := c.put_get hc
          obtain ⟨hlen, has, rfl⟩ := ih hmany
          refine ⟨by rw [List.length_cons, hlen], ?_, ?_⟩
          · intro b hb
            rcases List.mem_cons.mp hb with rfl | hb
            · exact ha
            · exact has b hb
          · unfold putMany
            rw [List.flatMap_cons, List.append_assoc]

theorem getMany_safe {n : ℕ} : ∀ {bs : List UInt8}, 4 ∣ bs.length →
    getMany c.get n bs ≠ .error .outOfBounds := by
  induction n with
  | zero =>
      intro bs _ h
      cases h
  | succ n ih =>
      intro bs hbs h
      unfold getMany at h
      split at h
      · rename_i e he
        obtain rfl := Except.error.inj h
        exact c.safe hbs he
      · rename_i a rest hc
        split at h
        · rename_i e he
          obtain rfl := Except.error.inj h
          exact ih (c.dvd_rest hc hbs) he
        · cases h

end

/-- `T x<max>`. -/
def vector (max : ℕ) (hmax : max < 2 ^ 32) (c : Codec α) : Codec (List α) where
  Fits := fun as => as.length ≤ max ∧ ∀ a ∈ as, c.Fits a
  size := fun as => 4 + (as.map c.size).sum
  put := fun as => put32 as.length ++ c.putMany as
  get := fun bs =>
    match getWord bs with
    | .error e => .error e
    | .ok (n, bs) => if n > max then .error .overflow else getMany c.get n bs
  length_put := fun as => by
    rw [List.length_append, c.length_putMany]
    rfl
  aligned := fun as => Nat.dvd_add dvd_rfl (c.dvd_sum_size as)
  get_put := by
    rintro as rest ⟨hlen, has⟩
    rw [List.append_assoc, getWord_put32 (lt_of_le_of_lt hlen hmax)]
    dsimp only
    rw [if_neg (not_lt.mpr hlen), c.getMany_putMany has]
  put_get := by
    intro bs as rest h
    split at h
    · cases h
    · rename_i n bs' hword
      obtain ⟨-, rfl⟩ := put32_of_getWord hword
      split_ifs at h with hn
      obtain ⟨rfl, has, rfl⟩ := c.putMany_of_getMany h
      exact ⟨⟨not_lt.mp hn, has⟩, by rw [List.append_assoc]⟩
  safe := by
    intro bs hbs
    split
    · rename_i e he
      intro h
      obtain rfl := Except.error.inj h
      exact uint32.safe hbs he
    · rename_i n bs' hword
      split_ifs
      · simp
      · exact c.getMany_safe (uint32.dvd_rest hword hbs)

/-! ## Whole messages -/

variable (c : Codec α)

/-- `xdr_to_opaque`. -/
def toOpaque (a : α) : List UInt8 := c.put a

/-- `xdr_from_opaque`. -/
def fromOpaque (message : List UInt8) : Except Exn α :=
  if message.length % 4 ≠ 0 then .error .badMessageSize
  else
    match c.get message with
    | .error e => .error e
    | .ok (a, rest) => if rest ≠ [] then .error .badMessageSize else .ok a

/-- **A message is accepted exactly as the encoding of what it is accepted for.** -/
theorem fromOpaque_eq_ok {message : List UInt8} {a : α} :
    c.fromOpaque message = .ok a ↔ c.Fits a ∧ message = c.toOpaque a := by
  unfold fromOpaque toOpaque
  constructor
  · intro h
    split_ifs at h
    split at h
    · cases h
    · rename_i b rest hget
      split_ifs at h with hrest
      obtain rfl := Except.ok.inj h
      obtain rfl := not_not.mp hrest
      obtain ⟨hb, rfl⟩ := c.put_get hget
      exact ⟨hb, List.append_nil _⟩
  · rintro ⟨ha, rfl⟩
    have hread := c.get_put [] ha
    rw [List.append_nil] at hread
    rw [if_neg, hread]
    · simp
    · rw [c.length_put, not_not]
      exact Nat.mod_eq_zero_of_dvd (c.aligned a)

/-- **No message makes the reader look past its end.** -/
theorem fromOpaque_safe (message : List UInt8) : c.fromOpaque message ≠ .error .outOfBounds := by
  unfold fromOpaque
  split_ifs with hsize
  · simp
  · split
    · rename_i e he
      intro h
      obtain rfl := Except.error.inj h
      exact c.safe (Nat.dvd_of_mod_eq_zero (not_not.mp hsize)) he
    · split_ifs <;> simp

/-- No encoding begins another one. -/
theorem toOpaque_prefix_free {a b : α} (ha : c.Fits a) (hb : c.Fits b)
    (h : c.toOpaque a <+: c.toOpaque b) : a = b := by
  obtain ⟨rest, hrest⟩ := h
  have h₁ := c.get_put rest ha
  have h₂ := c.get_put [] hb
  unfold toOpaque at hrest
  rw [hrest] at h₁
  rw [List.append_nil] at h₂
  exact (Prod.mk.inj (Except.ok.inj (h₁.symm.trans h₂))).1

/-- **A message that was cut short is refused.** -/
theorem fromOpaque_of_prefix {b : α} (hb : c.Fits b) {message : List UInt8}
    (hcut : message <+: c.toOpaque b) (hne : message ≠ c.toOpaque b) :
    ∃ e, c.fromOpaque message = .error e := by
  rcases h : c.fromOpaque message with e | a
  · exact ⟨e, rfl⟩
  · exfalso
    obtain ⟨ha, rfl⟩ := c.fromOpaque_eq_ok.mp h
    exact hne (by rw [c.toOpaque_prefix_free ha hb hcut])

end Codec

end Fred.Xdr
