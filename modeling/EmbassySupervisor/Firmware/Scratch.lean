/-
# Downloading into scratch flash

An image is written to the scratch region of the flash chunk by chunk, each sector erased just
before the first chunk that reaches it. Programming a flash only clears bits, so a byte has to
be erased before it is written, and a sector that holds part of the image must not be erased
again. `download_run`: whatever the chunks, a download that succeeds leaves the body in scratch,
byte for byte, and no download touches the flash outside of it.

The flash driver is a parameter, with what its documentation promises in `NorFlash.Lawful`.
-/

import Mathlib.Data.List.Basic
import Mathlib.Data.UInt

namespace EmbassySupervisor.Firmware

universe u

/-- A blocking flash driver: what a byte reads as, and the outcome and the new state of an
erase and of a write. -/
structure NorFlash (σ : Type u) where
  read : σ → ℕ → UInt8
  blockingErase : σ → ℕ → ℕ → Bool × σ
  blockingWrite : σ → ℕ → List UInt8 → Bool × σ

/-- An erase sets its range to ones, a write stores its bytes where all are erased, and neither
touches a byte outside its range, also where it fails. -/
structure NorFlash.Lawful {σ : Type u} (d : NorFlash σ) : Prop where
  erased : ∀ f a b x, (d.blockingErase f a b).1 = true → a ≤ x → x < b →
    d.read (d.blockingErase f a b).2 x = 0xFF
  erase_frame : ∀ f a b x, x < a ∨ b ≤ x → d.read (d.blockingErase f a b).2 x = d.read f x
  written : ∀ f a bytes, (d.blockingWrite f a bytes).1 = true →
    (∀ x, a ≤ x → x < a + bytes.length → d.read f x = 0xFF) →
    ∀ i, i < bytes.length → some (d.read (d.blockingWrite f a bytes).2 (a + i)) = bytes[i]?
  write_frame : ∀ f a bytes x, x < a ∨ a + bytes.length ≤ x →
    d.read (d.blockingWrite f a bytes).2 x = d.read f x

def eraseSize : ℕ := 4096
def scratchOffset : ℕ := 0x1E0000
def scratchLen : ℕ := 128 * 1024

/-- The length of the buffer a chunk is read into. -/
def chunkLen : ℕ := 1024

structure Scratch (σ : Type u) where
  flash : σ
  erasedSectors : ℕ := 0

inductive OtaError
  | bodyRead
  | tooLarge
  | erase
  | write
  deriving DecidableEq

def OtaError.text : OtaError → String
  | .bodyRead => "http body read"
  | .tooLarge => "image larger than scratch"
  | .erase => "scratch erase"
  | .write => "scratch write"

variable {σ : Type u} (d : NorFlash σ)

namespace Scratch

/-- The loop of `write`: erase the sectors from the first that is not yet, so many of them. -/
def eraseNext (s : Scratch σ) : ℕ → Bool × Scratch σ
  | 0 => (true, s)
  | k + 1 =>
    let sector := scratchOffset + s.erasedSectors * eraseSize
    match d.blockingErase s.flash sector (sector + eraseSize) with
    | (true, flash) => eraseNext { flash, erasedSectors := s.erasedSectors + 1 } k
    | (false, flash) => (false, { s with flash })

/-- `write`, with the end of the chunk in 32 bits. -/
def write (s : Scratch σ) (offset : ℕ) (bytes : List UInt8) : Except OtaError Unit × Scratch σ :=
  let last := (offset + bytes.length) % 2 ^ 32
  if bytes.isEmpty then (.ok (), s)
  else if scratchLen < last then (.error .tooLarge, s)
  else
    match s.eraseNext d ((last + eraseSize - 1) / eraseSize - s.erasedSectors) with
    | (false, s) => (.error .erase, s)
    | (true, s) =>
      match d.blockingWrite s.flash (scratchOffset + offset) bytes with
      | (true, flash) => (.ok (), { s with flash })
      | (false, flash) => (.error .write, { s with flash })

end Scratch

/-- The loop of `download_to_scratch`, over what the reader yields: an error, or the bytes it
has put in the buffer, none at the end of the body. -/
def downloadFrom (s : Scratch σ) (written : ℕ) :
    List (Option (List UInt8)) → Except OtaError ℕ × Scratch σ
  | [] => (.ok written, s)
  | none :: _ => (.error .bodyRead, s)
  | some chunk :: rest =>
    if chunk.isEmpty then (.ok written, s)
    else
      match s.write d written chunk with
      | (.ok (), s) => downloadFrom s ((written + chunk.length) % 2 ^ 32) rest
      | (.error e, s) => (.error e, s)

def downloadToScratch (flash : σ) (reads : List (Option (List UInt8))) :
    Except OtaError ℕ × Scratch σ :=
  downloadFrom d { flash } 0 reads

/-- The body: what the reader yields before its end. -/
def bodyOf : List (Option (List UInt8)) → List UInt8
  | [] | none :: _ => []
  | some chunk :: rest => if chunk.isEmpty then [] else chunk ++ bodyOf rest

/-- The reader comes to the end of the body without an error. -/
def readsThrough : List (Option (List UInt8)) → Bool
  | [] => true
  | none :: _ => false
  | some chunk :: rest => chunk.isEmpty || readsThrough rest

/-! ## What the flash holds -/

variable {d} {f₀ : σ} {body : List UInt8} {s : Scratch σ}

/-- The flash outside of scratch is as it was. -/
def Untouched (d : NorFlash σ) (f₀ f : σ) : Prop :=
  ∀ x, x < scratchOffset ∨ scratchOffset + scratchLen ≤ x → d.read f x = d.read f₀ x

/-- Scratch begins with the body so far, and is erased behind it up to the end of a sector. -/
structure Holds (d : NorFlash σ) (f₀ : σ) (body : List UInt8) (s : Scratch σ) : Prop where
  untouched : Untouched d f₀ s.flash
  stored : ∀ i, i < body.length → some (d.read s.flash (scratchOffset + i)) = body[i]?
  blank : ∀ i, body.length ≤ i → i < s.erasedSectors * eraseSize →
    d.read s.flash (scratchOffset + i) = 0xFF
  covered : body.length ≤ s.erasedSectors * eraseSize
  room : s.erasedSectors * eraseSize ≤ scratchLen

/-- Neither an erase of a sector of scratch nor a write within scratch fails. -/
structure NorFlash.Reliable (d : NorFlash σ) : Prop where
  erases : ∀ f k, (k + 1) * eraseSize ≤ scratchLen →
    (d.blockingErase f (scratchOffset + k * eraseSize)
      (scratchOffset + k * eraseSize + eraseSize)).1 = true
  writes : ∀ f offset bytes, offset + bytes.length ≤ scratchLen →
    (d.blockingWrite f (scratchOffset + offset) bytes).1 = true

/-- **One more sector.** -/
theorem holds_erase (hd : d.Lawful) (hs : Holds d f₀ body s) {f : σ} {ok : Bool}
    (hroom : (s.erasedSectors + 1) * eraseSize ≤ scratchLen)
    (h : d.blockingErase s.flash (scratchOffset + s.erasedSectors * eraseSize)
      (scratchOffset + s.erasedSectors * eraseSize + eraseSize) = (ok, f)) :
    Untouched d f₀ f ∧ (ok = true → Holds d f₀ body ⟨f, s.erasedSectors + 1⟩) := by
  have hcovered := hs.covered
  have hframe := hd.erase_frame s.flash (scratchOffset + s.erasedSectors * eraseSize)
    (scratchOffset + s.erasedSectors * eraseSize + eraseSize)
  rw [h] at hframe
  have huntouched : Untouched d f₀ f := by
    intro x hx
    rw [hframe x (by simp only [scratchOffset, scratchLen, eraseSize] at *; omega)]
    exact hs.untouched x hx
  refine ⟨huntouched, fun hok => ⟨huntouched, fun i hi => ?_, fun i hi hlt => ?_, ?_, hroom⟩⟩
  · rw [hframe _ (Or.inl (by omega))]
    exact hs.stored i hi
  · by_cases hold : i < s.erasedSectors * eraseSize
    · rw [hframe _ (Or.inl (by omega))]
      exact hs.blank i hi hold
    · have herased := hd.erased s.flash (scratchOffset + s.erasedSectors * eraseSize)
        (scratchOffset + s.erasedSectors * eraseSize + eraseSize) (scratchOffset + i)
      rw [h] at herased
      simp only [Nat.add_mul, Nat.one_mul] at hlt
      exact herased hok (by omega) (by omega)
  · simp only [Nat.add_mul]
    omega

/-- The loop of sectors. -/
theorem holds_eraseNext (hd : d.Lawful) (k : ℕ) (hs : Holds d f₀ body s)
    (hroom : (s.erasedSectors + k) * eraseSize ≤ scratchLen) :
    Untouched d f₀ (s.eraseNext d k).2.flash ∧
      ((s.eraseNext d k).1 = true → Holds d f₀ body (s.eraseNext d k).2 ∧
        (s.eraseNext d k).2.erasedSectors = s.erasedSectors + k) ∧
      (d.Reliable → (s.eraseNext d k).1 = true) := by
  induction k generalizing s with
  | zero => exact ⟨hs.untouched, fun _ => ⟨hs, rfl⟩, fun _ => rfl⟩
  | succ k ih =>
      have hnext : (s.erasedSectors + 1) * eraseSize ≤ scratchLen :=
        Nat.le_trans (Nat.mul_le_mul_right _ (by omega)) hroom
      simp only [Scratch.eraseNext]
      split
      · next f herase =>
          obtain ⟨-, hheld⟩ := holds_erase hd hs hnext herase
          obtain ⟨huntouched, hdone, hreliable⟩ :=
            ih (hheld rfl) (by simpa only [Nat.add_assoc, Nat.add_comm 1] using hroom)
          refine ⟨huntouched, fun hok => ?_, hreliable⟩
          obtain ⟨hholds, hsectors⟩ := hdone hok
          refine ⟨hholds, hsectors.trans ?_⟩
          show s.erasedSectors + 1 + k = s.erasedSectors + (k + 1)
          omega
      · next f herase =>
          obtain ⟨huntouched, -⟩ := holds_erase hd hs hnext herase
          refine ⟨huntouched, nofun, fun hreliable => ?_⟩
          have hok := hreliable.erases s.flash s.erasedSectors hnext
          rw [herase] at hok
          exact hok

/-- **One more chunk.** -/
theorem holds_write (hd : d.Lawful) (hs : Holds d f₀ body s) {chunk : List UInt8}
    (hne : chunk.isEmpty = false) (hlen : chunk.length ≤ chunkLen) :
    Untouched d f₀ (s.write d body.length chunk).2.flash ∧
      ((s.write d body.length chunk).1 = .ok () →
        Holds d f₀ (body ++ chunk) (s.write d body.length chunk).2) ∧
      (d.Reliable → (s.write d body.length chunk).1 =
        if scratchLen < body.length + chunk.length then .error .tooLarge else .ok ()) := by
  have hbound : body.length ≤ scratchLen := Nat.le_trans hs.covered hs.room
  have hlast : (body.length + chunk.length) % 2 ^ 32 = body.length + chunk.length := by
    apply Nat.mod_eq_of_lt
    simp only [scratchLen, chunkLen] at *
    omega
  simp only [Scratch.write, hlast, hne, Bool.false_eq_true, if_false]
  by_cases hlarge : scratchLen < body.length + chunk.length
  · rw [if_pos hlarge]
    exact ⟨hs.untouched, nofun, fun _ => (if_pos hlarge).symm⟩
  rw [if_neg hlarge]
  have hneeded : (s.erasedSectors + ((body.length + chunk.length + eraseSize - 1) / eraseSize -
      s.erasedSectors)) * eraseSize ≤ scratchLen ∧ body.length + chunk.length ≤
      (s.erasedSectors + ((body.length + chunk.length + eraseSize - 1) / eraseSize -
        s.erasedSectors)) * eraseSize := by
    have hroom := hs.room
    simp only [scratchLen, eraseSize] at *
    omega
  obtain ⟨huntouched, hdone, hreliable⟩ := holds_eraseNext hd _ hs hneeded.1
  split
  · next t herase =>
      rw [herase] at huntouched hreliable
      exact ⟨huntouched, nofun, fun h => absurd (hreliable h) nofun⟩
  · next t herase =>
      rw [herase] at hdone
      obtain ⟨hholds, hsectors⟩ : Holds d f₀ body t ∧ t.erasedSectors = _ := hdone rfl
      have hcovered : body.length + chunk.length ≤ t.erasedSectors * eraseSize := by
        rw [hsectors]
        exact hneeded.2
      have hroom := hholds.room
      have hframe := hd.write_frame t.flash (scratchOffset + body.length) chunk
      have hwritten := hd.written t.flash (scratchOffset + body.length) chunk
      have hsuccess : d.Reliable → _ := fun h =>
        h.writes t.flash body.length chunk (by omega)
      -- what the chunk is written over is erased
      have hblank : ∀ x, scratchOffset + body.length ≤ x →
          x < scratchOffset + body.length + chunk.length → d.read t.flash x = 0xFF := by
        intro x hle hlt
        have hx := hholds.blank (x - scratchOffset) (by omega) (by omega)
        rwa [Nat.add_sub_cancel' (by omega)] at hx
      have hkept : Untouched d f₀
          (d.blockingWrite t.flash (scratchOffset + body.length) chunk).2 := by
        intro x hx
        rw [hframe x (by omega)]
        exact hholds.untouched x hx
      split
      · next f hwrite =>
          rw [hwrite] at hframe hwritten hkept
          refine ⟨hkept, fun _ => ⟨hkept, fun i hi => ?_, fun i hi hlt => ?_, ?_, hroom⟩,
            fun _ => (if_neg hlarge).symm⟩
          · rw [List.length_append] at hi
            by_cases hold : i < body.length
            · rw [hframe _ (Or.inl (by omega)), List.getElem?_append_left hold]
              exact hholds.stored i hold
            · have hnew := hwritten rfl hblank (i - body.length) (by omega)
              rw [List.getElem?_append_right (by omega), ← hnew]
              congr 2
              omega
          · rw [List.length_append] at hi
            rw [hframe _ (Or.inr (by omega))]
            exact hholds.blank i (by omega) hlt
          · rw [List.length_append]
            exact hcovered
      · next f hwrite =>
          rw [hwrite] at hkept hsuccess
          exact ⟨hkept, nofun, fun h => absurd (hsuccess h) nofun⟩

/-- How a download goes that leaves this body: the flash outside of scratch stays, a success
means that the body is there, and with a reliable flash and reader it is a matter of room. -/
structure Downloads (d : NorFlash σ) (f₀ : σ) (body : List UInt8) (through : Bool)
    (r : Except OtaError ℕ × Scratch σ) : Prop where
  untouched : Untouched d f₀ r.2.flash
  holds : ∀ len, r.1 = .ok len → len = body.length ∧ Holds d f₀ body r.2
  outcome : d.Reliable → through = true →
    r.1 = if scratchLen < body.length then .error .tooLarge else .ok body.length

theorem Holds.length_le (hs : Holds d f₀ body s) : body.length ≤ scratchLen :=
  Nat.le_trans hs.covered hs.room

theorem downloads_end (hs : Holds d f₀ body s) (through : Bool) :
    Downloads d f₀ body through (.ok body.length, s) where
  untouched := hs.untouched
  holds len hlen := by
    cases hlen
    exact ⟨rfl, hs⟩
  outcome _ _ := (if_neg (Nat.not_lt.mpr hs.length_le)).symm

/-- **The rest of the download**, from the body so far. -/
theorem downloads_from (hd : d.Lawful) {reads : List (Option (List UInt8))}
    (hs : Holds d f₀ body s) (hchunks : ∀ chunk, some chunk ∈ reads → chunk.length ≤ chunkLen) :
    Downloads d f₀ (body ++ bodyOf reads) (readsThrough reads)
      (downloadFrom d s body.length reads) := by
  induction reads generalizing body s with
  | nil =>
      rw [bodyOf, List.append_nil]
      exact downloads_end hs _
  | cons r rest ih =>
      cases r with
      | none => exact ⟨hs.untouched, nofun, fun _ h => absurd h nofun⟩
      | some chunk =>
          by_cases hempty : chunk.isEmpty = true
          · simp only [downloadFrom, bodyOf, hempty, if_true, List.append_nil]
            exact downloads_end hs _
          have hne : chunk.isEmpty = false := by simpa using hempty
          have hrest : ∀ c, some c ∈ rest → c.length ≤ chunkLen := fun c hc =>
            hchunks c (List.mem_cons_of_mem _ hc)
          obtain ⟨huntouched, hheld, hreliable⟩ :=
            holds_write hd hs hne (hchunks chunk List.mem_cons_self)
          simp only [downloadFrom, bodyOf, readsThrough, hne, Bool.false_eq_true, if_false,
            Bool.false_or, ← List.append_assoc]
          split
          · next t hwrite =>
              rw [hwrite] at hheld
              have hholds : Holds d f₀ (body ++ chunk) t := hheld rfl
              have hwritten : (body.length + chunk.length) % 2 ^ 32 = (body ++ chunk).length := by
                have hbound := hholds.length_le
                rw [List.length_append] at hbound ⊢
                apply Nat.mod_eq_of_lt
                simp only [scratchLen] at hbound
                omega
              rw [hwritten]
              exact ih hholds hrest
          · next e t hwrite =>
              rw [hwrite] at huntouched hreliable
              refine ⟨huntouched, nofun, fun h _ => ?_⟩
              have hresult := hreliable h
              by_cases hlarge : scratchLen < body.length + chunk.length
              · rw [if_pos hlarge] at hresult
                cases hresult
                rw [if_pos (by simp only [List.length_append]; omega)]
              · rw [if_neg hlarge] at hresult
                cases hresult

/-- **A download fills scratch and nothing else.** Whatever the reader yields and wherever an
erase or a write fails, the flash outside of scratch is as it was; a download that succeeds
returns the length of the body and has stored it in scratch, byte for byte; and if neither the
flash nor the reader fails, it succeeds unless the body is larger than scratch, and says so. -/
theorem download_run {σ : Type u} {d : NorFlash σ} (hd : d.Lawful) (flash : σ)
    (reads : List (Option (List UInt8)))
    (hchunks : ∀ chunk, some chunk ∈ reads → chunk.length ≤ chunkLen) :
    (∀ x, x < scratchOffset ∨ scratchOffset + scratchLen ≤ x →
      d.read (downloadToScratch d flash reads).2.flash x = d.read flash x) ∧
    (∀ len, (downloadToScratch d flash reads).1 = .ok len → len = (bodyOf reads).length ∧
      ∀ i, i < len → some (d.read (downloadToScratch d flash reads).2.flash (scratchOffset + i)) =
        (bodyOf reads)[i]?) ∧
    (d.Reliable → readsThrough reads = true →
      (downloadToScratch d flash reads).1.mapError OtaError.text =
        if scratchLen < (bodyOf reads).length then .error "image larger than scratch"
        else .ok (bodyOf reads).length) := by
  have hempty : Holds d flash [] { flash } :=
    ⟨fun _ _ => rfl, nofun, fun i _ hi => absurd hi (by simp), Nat.zero_le _, by simp⟩
  have hrun : Downloads d flash (bodyOf reads) (readsThrough reads)
      (downloadToScratch d flash reads) := downloads_from hd hempty hchunks
  refine ⟨hrun.untouched, fun len hlen => ?_, fun hreliable hthrough => ?_⟩
  · obtain ⟨rfl, hholds⟩ := hrun.holds len hlen
    exact ⟨rfl, hholds.stored⟩
  · rw [hrun.outcome hreliable hthrough]
    split <;> rfl

/-- A flash as an array of bytes: erasing sets all bits, writing clears those not in the data. -/
def byteFlash : NorFlash (ℕ → UInt8) where
  read f x := f x
  blockingErase f a b := (true, fun x => if a ≤ x ∧ x < b then 0xFF else f x)
  blockingWrite f a bytes :=
    (true, fun x => if a ≤ x ∧ x < a + bytes.length then f x &&& bytes.getD (x - a) 0xFF else f x)

theorem lawful_byteFlash : byteFlash.Lawful where
  erased f a b x _ ha hb := if_pos ⟨ha, hb⟩
  erase_frame f a b x hx := if_neg (by omega)
  written f a bytes _ hblank i hi := by
    have hx : a ≤ a + i ∧ a + i < a + bytes.length := by omega
    have herased : f (a + i) = 0xFF := hblank _ hx.1 hx.2
    have hones : ∀ b : UInt8, 0xFF &&& b = b := by
      intro b
      rw [← UInt8.toBitVec_inj]
      exact BitVec.allOnes_and
    simp only [byteFlash, if_pos hx, herased, hones, Nat.add_sub_cancel_left]
    rw [List.getD_eq_getElem?_getD, List.getElem?_eq_getElem hi]
    rfl
  write_frame f a bytes x hx := if_neg (by omega)

theorem download_run_bytes :
    (downloadToScratch byteFlash (fun _ => 0x55)
      [some [0x0F, 0xF0], some [0x3C], some []]).1.mapError OtaError.text = .ok 3 := by
  have hchunks : ∀ chunk : List UInt8,
      some chunk ∈ [some [0x0F, 0xF0], some [0x3C], some []] → chunk.length ≤ chunkLen := by
    intro chunk hchunk
    simp at hchunk
    rcases hchunk with rfl | rfl | rfl <;> simp [chunkLen]
  obtain ⟨-, -, houtcome⟩ := download_run lawful_byteFlash (fun _ => 0x55) _ hchunks
  exact houtcome ⟨fun _ _ _ => rfl, fun _ _ _ _ => rfl⟩ rfl

end EmbassySupervisor.Firmware
