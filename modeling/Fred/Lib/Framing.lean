/-
# Fred.Lib.Framing -- messages behind headers in a stream

A general library. A stream carries messages one after the other, each behind a header of fixed width that
says how long the message is (`Format`). `feed` reads one item; a reader that takes larger pieces is
compared with it, and then the pieces cannot matter. The stream of framed messages reads back as the
messages (`feedAll_frames`), and of a stream that is cut off a beginning of its messages is read
(`delivered_mono`).
-/
import Mathlib.Data.List.Basic
import Mathlib.Tactic.Common

namespace Fred.Framing

/-- Headers of `width` items; `size` reads from one how long the message behind it is, or refuses it. -/
structure Format (α ε : Type*) where
  width : Nat
  size : List α → Except ε Nat
  width_pos : 0 < width

/-- What a reader waits for: the rest of a header, the rest of a message, or nothing any more. -/
inductive State (α ε : Type*) where
  | header (got : List α)
  | body (size : Nat) (got : List α)
  | refused (e : ε)

variable {α ε : Type*} (F : Format α ε) {s : State α ε} {got xs ys m : List α} {n : Nat}

namespace Format

/-- A header is complete. -/
def begin (header : List α) : State α ε × List (List α) :=
  match F.size header with
  | .error e => (.refused e, [])
  | .ok 0 => (.header [], [[]])
  | .ok (n + 1) => (.body (n + 1) [], [])

/-- One item is read; the second component holds the messages that are complete now. -/
def feed : State α ε → α → State α ε × List (List α)
  | .header got, x =>
    if got.length + 1 < F.width then (.header (got ++ [x]), []) else F.begin (got ++ [x])
  | .body n got, x =>
    if got.length + 1 < n then (.body n (got ++ [x]), []) else (.header [], [got ++ [x]])
  | .refused e, _ => (.refused e, [])

def feedAll : State α ε → List α → State α ε × List (List α)
  | s, [] => (s, [])
  | s, x :: xs => ((feedAll (F.feed s x).1 xs).1, (F.feed s x).2 ++ (feedAll (F.feed s x).1 xs).2)

theorem feedAll_append (s : State α ε) (xs ys : List α) :
    F.feedAll s (xs ++ ys) = ((F.feedAll (F.feedAll s xs).1 ys).1,
      (F.feedAll s xs).2 ++ (F.feedAll (F.feedAll s xs).1 ys).2) := by
  induction xs generalizing s with
  | nil => simp [feedAll]
  | cons x xs ih => simp [feedAll, ih]

/-- **What was delivered stays delivered.** -/
theorem delivered_mono (s : State α ε) (h : xs <+: ys) :
    (F.feedAll s xs).2 <+: (F.feedAll s ys).2 := by
  obtain ⟨rest, rfl⟩ := h
  rw [feedAll_append]
  exact List.prefix_append _ _

@[simp] theorem feedAll_refused (e : ε) (xs : List α) :
    F.feedAll (.refused e) xs = (.refused e, []) := by
  induction xs with
  | nil => rfl
  | cons x xs ih => simp [feedAll, feed, ih]

/-! ## Pieces -/

theorem feedAll_header_of_lt (h : got.length + xs.length < F.width) :
    F.feedAll (.header got) xs = (.header (got ++ xs), []) := by
  induction xs generalizing got with
  | nil => simp [feedAll]
  | cons x xs ih =>
      rw [List.length_cons] at h
      have hx : got.length + 1 < F.width := by omega
      simp only [feedAll, feed, if_pos hx, List.nil_append]
      rw [ih (by simp; omega), List.append_assoc]
      rfl

/-- The piece that completes a header. -/
theorem feedAll_header_of_eq (hgot : got.length < F.width)
    (h : got.length + xs.length = F.width) : F.feedAll (.header got) xs = F.begin (got ++ xs) := by
  induction xs generalizing got with
  | nil =>
      rw [List.length_nil] at h
      omega
  | cons x xs ih =>
      rw [List.length_cons] at h
      by_cases hx : got.length + 1 < F.width
      · simp only [feedAll, feed, if_pos hx, List.nil_append]
        rw [ih (by simp; omega) (by simp; omega), List.append_assoc]
        rfl
      · obtain rfl : xs = [] := List.length_eq_zero_iff.mp (by omega)
        simp [feedAll, feed, hx]

theorem feedAll_body_of_lt (h : got.length + xs.length < n) :
    F.feedAll (.body n got) xs = (.body n (got ++ xs), []) := by
  induction xs generalizing got with
  | nil => simp [feedAll]
  | cons x xs ih =>
      rw [List.length_cons] at h
      have hx : got.length + 1 < n := by omega
      simp only [feedAll, feed, if_pos hx, List.nil_append]
      rw [ih (by simp; omega), List.append_assoc]
      rfl

/-- The piece that completes a message. -/
theorem feedAll_body_of_eq (hgot : got.length < n) (h : got.length + xs.length = n) :
    F.feedAll (.body n got) xs = (.header [], [got ++ xs]) := by
  induction xs generalizing got with
  | nil =>
      rw [List.length_nil] at h
      omega
  | cons x xs ih =>
      rw [List.length_cons] at h
      by_cases hx : got.length + 1 < n
      · simp only [feedAll, feed, if_pos hx, List.nil_append]
        rw [ih (by simp; omega) (by simp; omega), List.append_assoc]
        rfl
      · obtain rfl : xs = [] := List.length_eq_zero_iff.mp (by omega)
        simp [feedAll, feed, hx]

/-! ## Frames -/

/-- `f` is the message behind a header that says its length. -/
def IsFrame (m f : List α) : Prop :=
  ∃ header, f = header ++ m ∧ header.length = F.width ∧ F.size header = .ok m.length

theorem feedAll_frame {f : List α} (h : F.IsFrame m f) :
    F.feedAll (.header []) f = (.header [], [m]) := by
  obtain ⟨header, rfl, hwidth, hsize⟩ := h
  have hempty : ([] : List α).length < F.width := F.width_pos
  rw [feedAll_append, F.feedAll_header_of_eq hempty (by simpa using hwidth), List.nil_append]
  unfold begin
  rw [hsize]
  rcases hm : m.length with _ | n
  · rw [List.length_eq_zero_iff.mp hm]
    rfl
  · simp only
    rw [F.feedAll_body_of_eq (Nat.succ_pos n) (by simpa using hm)]
    rfl

/-- Behind a header that is refused nothing is read. -/
theorem feedAll_refused_header {header : List α} {e : ε} (hwidth : header.length = F.width)
    (hsize : F.size header = .error e) (rest : List α) :
    F.feedAll (.header []) (header ++ rest) = (.refused e, []) := by
  have hempty : ([] : List α).length < F.width := F.width_pos
  have hheader : F.feedAll (.header []) header = (.refused e, []) := by
    rw [F.feedAll_header_of_eq hempty (by simpa using hwidth), List.nil_append]
    unfold begin
    rw [hsize]
  rw [feedAll_append, hheader, feedAll_refused, List.append_nil]

/-- **Round trip**: a stream of frames delivers the messages. -/
theorem feedAll_frames {frame : List α → List α} {ms : List (List α)}
    (h : ∀ m ∈ ms, F.IsFrame m (frame m)) :
    F.feedAll (.header []) (ms.flatMap frame) = (.header [], ms) := by
  induction ms with
  | nil => rfl
  | cons m ms ih =>
      rw [List.flatMap_cons, feedAll_append, F.feedAll_frame (h m List.mem_cons_self),
        ih fun x hx => h x (List.mem_cons_of_mem m hx)]
      rfl

end Format

end Fred.Framing
