import ProofMarket.Lib.LittleEndian

/-!
# Frames in a byte stream

A stream arrives in pieces that have nothing to do with the frames in it. A reader puts each piece
behind what it has and takes frames off the front as long as there is a whole one; it gives up at
the first that is broken.

* `Framing.drain` — the frames of a buffer, and what is left of it.
* `Framing.drain_append` — **a buffer can be drained in pieces.**
* `Framing.Taken` — which frames a reader has taken off a stream, and which bytes are left. It
  stays true when the stream goes on, and when the reader does.

A `Framing` carries the laws that this takes. `lengthDelimited` is the framing with the length of a
frame in front of it, and `decoding` reads every frame as a value.
-/

/-- What is at the front of a buffer. -/
inductive Scan (β α : Type) where
  | incomplete
  | broken
  | item (a : α) (rest : List β)

/-- How to tell what is at the front of a buffer. What comes later does not change it. -/
structure Framing (β α : Type) where
  scan : List β → Scan β α
  scan_nil : scan [] = .incomplete
  item_append : ∀ {b a rest} (more : List β), scan b = .item a rest →
    scan (b ++ more) = .item a (rest ++ more)
  broken_append : ∀ {b} (more : List β), scan b = .broken → scan (b ++ more) = .broken
  item_shorter : ∀ {b a rest}, scan b = .item a rest → rest.length < b.length

namespace Framing

variable {α β γ : Type} (F : Framing β α)

/-- The frames of a buffer, and what is left of it; nothing is left when a frame is broken. -/
def drain (b : List β) : List α × Option (List β) :=
  match h : F.scan b with
  | .incomplete => ([], some b)
  | .broken => ([], none)
  | .item a rest =>
    have := F.item_shorter h
    (a :: (drain rest).1, (drain rest).2)
termination_by b.length

variable {F} {b c : List β} {a : α} {rest : List β}

theorem drain_incomplete (h : F.scan b = .incomplete) : F.drain b = ([], some b) := by
  rw [drain]
  split <;> simp_all

@[simp] theorem drain_nil : F.drain [] = ([], some []) := drain_incomplete F.scan_nil

theorem drain_broken (h : F.scan b = .broken) : F.drain b = ([], none) := by
  rw [drain]
  split <;> simp_all

theorem drain_item (h : F.scan b = .item a rest) :
    F.drain b = (a :: (F.drain rest).1, (F.drain rest).2) := by
  rw [drain]
  split
  · simp_all
  · simp_all
  · rename_i a' rest' h'
    rw [h] at h'
    cases h'
    rfl

/-- **A buffer can be drained in pieces**: what is left of the first piece goes in front of the
second. Nothing is read behind a broken frame. -/
theorem drain_append (b c : List β) :
    F.drain (b ++ c) =
      match (F.drain b).2 with
      | some rest => ((F.drain b).1 ++ (F.drain (rest ++ c)).1, (F.drain (rest ++ c)).2)
      | none => ((F.drain b).1, none) := by
  induction b using drain.induct F with
  | case1 b hscan =>
    rw [drain_incomplete hscan]
    rfl
  | case2 b hscan => rw [drain_broken hscan, drain_broken (F.broken_append c hscan)]
  | case3 b a rest hscan _ ih =>
    rw [drain_item hscan, drain_item (F.item_append c hscan), ih]
    dsimp only
    cases (F.drain rest).2 <;> rfl

theorem drain_append_of_some {items : List α} (h : F.drain b = (items, some rest)) (c : List β) :
    F.drain (b ++ c) = (items ++ (F.drain (rest ++ c)).1, (F.drain (rest ++ c)).2) := by
  rw [drain_append, h]

theorem drain_prefix (h : b <+: c) : (F.drain b).1 <+: (F.drain c).1 := by
  obtain ⟨d, rfl⟩ := h
  rw [drain_append]
  cases (F.drain b).2 with
  | none => exact List.prefix_rfl
  | some rest => exact List.prefix_append _ _

/-! ## Readers -/

variable (F) in
/-- A reader has taken `items` off the stream `b`, and `c` is left of it. -/
def Taken (items : List α) (b c : List β) : Prop :=
  F.drain b = (items ++ (F.drain c).1, (F.drain c).2)

namespace Taken

variable {items : List α}

theorem start (F : Framing β α) (b : List β) : F.Taken [] b b := rfl

theorem append (h : F.Taken items b c) (more : List β) : F.Taken items (b ++ more) (c ++ more) := by
  unfold Taken at h ⊢
  rw [drain_append b, drain_append c, h]
  cases (F.drain c).2 with
  | none => rfl
  | some rest => simp only [List.append_assoc]

theorem next (h : F.Taken items b c) (hscan : F.scan c = .item a rest) :
    F.Taken (items ++ [a]) b rest := by
  unfold Taken at h ⊢
  rw [h, drain_item hscan, List.append_assoc, List.singleton_append]

theorem of_broken (h : F.Taken items b c) (hscan : F.scan c = .broken) :
    F.drain b = (items, none) := by
  rw [h, drain_broken hscan, List.append_nil]

theorem of_incomplete (h : F.Taken items b c) (hscan : F.scan c = .incomplete) :
    F.drain b = (items, some c) := by
  rw [h, drain_incomplete hscan, List.append_nil]

theorem isPrefix (h : F.Taken items b c) : items <+: (F.drain b).1 := by
  rw [h]
  exact List.prefix_append _ _

end Taken

/-! ## Writing -/

/-- What is written is read, whatever follows it. -/
def Writes (F : Framing β α) (write : α → Option (List β)) : Prop :=
  ∀ a bytes, write a = some bytes → ∀ rest, F.scan (bytes ++ rest) = .item a rest

theorem Writes.drain {write : α → Option (List β)} (hF : F.Writes write) {bytes : List β}
    (h : write a = some bytes) (rest : List β) :
    F.drain (bytes ++ rest) = (a :: (F.drain rest).1, (F.drain rest).2) :=
  drain_item (hF a bytes h rest)

/-! ## Frames as values -/

/-- Every frame is decoded; one that does not decode is broken. -/
def decoding (F : Framing β α) (decode : α → Option γ) : Framing β γ where
  scan b :=
    match F.scan b with
    | .incomplete => .incomplete
    | .broken => .broken
    | .item a rest =>
      match decode a with
      | some c => .item c rest
      | none => .broken
  scan_nil := by rw [F.scan_nil]
  item_append := by
    intro b c rest more h
    cases hscan : F.scan b with
    | incomplete | broken => simp [hscan] at h
    | item a rest' =>
      cases hdecode : decode a with
      | none => simp [hscan, hdecode] at h
      | some c' =>
        simp only [hscan, hdecode, Scan.item.injEq] at h
        simp only [F.item_append more hscan, hdecode, h.1, h.2]
  broken_append := by
    intro b more h
    cases hscan : F.scan b with
    | incomplete => simp [hscan] at h
    | broken => simp only [F.broken_append more hscan]
    | item a rest =>
      cases hdecode : decode a with
      | none => simp only [F.item_append more hscan, hdecode]
      | some c => simp [hscan, hdecode] at h
  item_shorter := by
    intro b c rest h
    cases hscan : F.scan b with
    | incomplete | broken => simp [hscan] at h
    | item a rest' =>
      cases hdecode : decode a with
      | none => simp [hscan, hdecode] at h
      | some c' =>
        simp only [hscan, hdecode, Scan.item.injEq] at h
        exact h.2 ▸ F.item_shorter hscan

theorem scan_decoding {decode : α → Option γ} {c : γ} (hdecode : decode a = some c)
    (h : F.scan b = .item a rest) : (F.decoding decode).scan b = .item c rest := by
  simp only [decoding, h, hdecode]

theorem item_of_scan_decoding {decode : α → Option γ} {c : γ}
    (h : (F.decoding decode).scan b = .item c rest) :
    ∃ a, F.scan b = .item a rest ∧ decode a = some c := by
  cases hscan : F.scan b with
  | incomplete | broken => simp [decoding, hscan] at h
  | item a rest' =>
    cases hdecode : decode a with
    | none => simp [decoding, hscan, hdecode] at h
    | some c' =>
      simp only [decoding, hscan, hdecode, Scan.item.injEq] at h
      exact ⟨a, by rw [h.2], by rw [hdecode, h.1]⟩

/-! ## A length in front -/

/-- Four bytes, the most significant first. -/
def be32 (n : Nat) : List UInt8 := (LittleEndian.toLe 4 n).reverse

def ofBe (bytes : List UInt8) : Nat := LittleEndian.ofLe bytes.reverse

theorem length_be32 (n : Nat) : (be32 n).length = 4 := by
  simp [be32]

theorem ofBe_be32 {n : Nat} (h : n < 256 ^ 4) : ofBe (be32 n) = n := by
  rw [ofBe, be32, List.reverse_reverse, LittleEndian.ofLe_toLe_of_lt h]

/-- A frame with its length in front. A frame longer than `limit` cannot be written, and is broken
when its length is read. -/
def writeLengthDelimited (limit : Nat) (frame : List UInt8) : Option (List UInt8) :=
  if frame.length ≤ limit then some (be32 frame.length ++ frame) else none

/-- Frames with their length in front. -/
def lengthDelimited (limit : Nat) : Framing UInt8 (List UInt8) where
  scan b :=
    if b.length < 4 then .incomplete
    else if limit < ofBe (b.take 4) then .broken
    else if b.length < 4 + ofBe (b.take 4) then .incomplete
    else .item ((b.drop 4).take (ofBe (b.take 4))) (b.drop (4 + ofBe (b.take 4)))
  scan_nil := rfl
  item_append := by
    intro b a rest more h
    split_ifs at h with hhead hlimit hbody
    cases h
    have htake : (b ++ more).take 4 = b.take 4 := List.take_append_of_le_length (by omega)
    rw [htake, if_neg (by simp; omega), if_neg hlimit, if_neg (by simp; omega),
      List.drop_append_of_le_length (by omega), List.drop_append_of_le_length (by omega),
      List.take_append_of_le_length (by simp; omega)]
  broken_append := by
    intro b more h
    split_ifs at h with hhead hlimit
    have htake : (b ++ more).take 4 = b.take 4 := List.take_append_of_le_length (by omega)
    rw [htake, if_neg (by simp; omega), if_pos hlimit]
  item_shorter := by
    intro b a rest h
    split_ifs at h with hhead hlimit hbody
    cases h
    rw [List.length_drop]
    omega

theorem writes_lengthDelimited {limit : Nat} (hlimit : limit < 256 ^ 4) :
    (lengthDelimited limit).Writes (writeLengthDelimited limit) := by
  intro frame bytes h rest
  unfold writeLengthDelimited at h
  split_ifs at h with hle
  cases h
  have hhead : (be32 frame.length ++ frame ++ rest).take 4 = be32 frame.length := by
    rw [List.append_assoc]
    exact List.take_left' (length_be32 _)
  have hbody : (be32 frame.length ++ frame ++ rest).drop 4 = frame ++ rest := by
    rw [List.append_assoc]
    exact List.drop_left' (length_be32 _)
  have hlen : (be32 frame.length ++ frame ++ rest).length = 4 + frame.length + rest.length := by
    simp only [List.length_append, length_be32]
  have hn : ofBe (be32 frame.length) = frame.length := ofBe_be32 (hle.trans_lt hlimit)
  simp only [lengthDelimited, hhead, hn, hlen, hbody]
  rw [if_neg (by omega), if_neg (by omega), if_neg (by omega), ← List.drop_drop, hbody,
    List.take_left' rfl, List.drop_left' rfl]

end Framing

/-- A way to write frames up to a limit, and to tell them apart again. -/
structure FrameFormat where
  framing : Framing UInt8 (List UInt8)
  limit : Nat
  write : List UInt8 → Option (List UInt8)
  writes : framing.Writes write
  write_isSome : ∀ frame, (write frame).isSome ↔ frame.length ≤ limit
  length_le : ∀ {b frame rest}, framing.scan b = .item frame rest → frame.length ≤ limit

/-- The format with the length of a frame in front of it. -/
def FrameFormat.lengthDelimited (limit : Nat) (hlimit : limit < 256 ^ 4) : FrameFormat where
  framing := Framing.lengthDelimited limit
  limit := limit
  write := Framing.writeLengthDelimited limit
  writes := Framing.writes_lengthDelimited hlimit
  write_isSome frame := by
    unfold Framing.writeLengthDelimited
    split_ifs with h
    · exact iff_of_true rfl h
    · exact iff_of_false (by simp) h
  length_le := by
    intro b frame rest h
    simp only [Framing.lengthDelimited] at h
    split_ifs at h with hhead hlimit' hbody
    cases h
    rw [List.length_take]
    omega
