import Mathlib.Tactic.SplitIfs
import Mathlib.Tactic.Ring
import Lerux.Base.Bytes
import Lerux.Base.Checked

/-!
# The graphics driver

The driver keeps one resource. A transfer is only noted: a flush asks the device for a new frame,
copies the pixels of the noted transfer from the client's data into it, and shows it. So what a
flush shows is the latest transfer alone, with the bytes that the client's data region holds when
the flush is answered (`flush_shows`). This is what was transferred when the transfer covers the
flushed rectangle and the client leaves its bytes alone in between.

The device is what is assumed of it: `change_resolution` gives a frame of zeros that becomes the
scanout, and `flush` shows the scanout. Either may fail.
-/

namespace Lerux.Gpu.Driver

open Lerux.Base

def gpuClientDataSize : Nat := 0x14000
def gpuRegionSize : Nat := 0x1000
def gpuDriverDmaSize : Nat := 0x200000
def gpuMaxResources : Nat := 1024
def gpuDisableScanoutResourceId : Nat := 0
def gpuBpp2d : Nat := 4

/-- The size of `gpu_resp_get_display_info_t`. -/
def displayInfoLen : Nat := 324

structure Rect where
  x : Nat
  y : Nat
  width : Nat
  height : Nat

/-- A pixel of the rectangle. -/
def Rect.Has (r : Rect) (x y : Nat) : Prop := r.x ≤ x ∧ x < r.x + r.width ∧ r.y ≤ y ∧ y < r.y + r.height

instance instDecidableHas (r : Rect) (x y : Nat) : Decidable (r.Has x y) :=
  inferInstanceAs (Decidable (r.x ≤ x ∧ x < r.x + r.width ∧ r.y ≤ y ∧ y < r.y + r.height))

inductive Format
  | b8g8r8a8
  | b8g8r8x8
  | a8r8g8b8
  | x8r8g8b8
  | r8g8b8a8
  | x8b8g8r8
  | a8b8g8r8
  | r8g8b8x8
  deriving DecidableEq

/-- A request with its payload. -/
inductive Req
  | getDisplayInfo (memOffset : Nat)
  | resourceCreate2d (resourceId width height : Nat) (format : Format)
  | resourceAttachBacking (resourceId memOffset memSize : Nat)
  | resourceDetachBacking (resourceId : Nat)
  | setScanout (resourceId scanoutId : Nat) (rect : Rect)
  | transferTo2d (resourceId : Nat) (rect : Rect) (memOffset : Nat)
  | resourceFlush (resourceId : Nat) (rect : Rect)
  | resourceUnref (resourceId : Nat)
  | resourceCreateBlob
  | setScanoutBlob

inductive Status
  | ok
  | errUnspec
  | errInvalidParameter
  | errInvalidBounds
  | errInvalidResourceId
  | errInvalidScanoutId
  deriving DecidableEq

structure Transfer where
  rect : Rect
  memOffset : Nat

structure Resource where
  id : Nat
  width : Nat
  height : Nat
  memOffset : Nat
  memSize : Nat
  attached : Bool
  transfer : Option Transfer

structure Frame where
  width : Nat
  height : Nat
  bytes : Nat → UInt8

def Frame.zeros (width height : Nat) : Frame := ⟨width, height, fun _ => 0⟩

def Frame.length (f : Frame) : Nat := f.width * f.height * gpuBpp2d

/-- Byte `k` of a pixel. -/
def Frame.pixel (f : Frame) (x y k : Nat) : UInt8 := f.bytes ((y * f.width + x) * gpuBpp2d + k)

/-- What the device answers to the call a request makes of it. -/
structure Device where
  resolution : Option (Nat × Nat)
  changes : Bool
  flushes : Bool

/-- The driver's resource, the scanout, the frame that is shown, and the display info written last:
where, and the size. -/
structure Handler where
  resource : Option Resource
  scanout : Option Frame
  shown : Option Frame
  info : Option (Nat × Nat × Nat)

def rectInside (rect : Rect) (width height : Nat) : Bool :=
  match checkedAdd 32 rect.x rect.width, checkedAdd 32 rect.y rect.height with
  | some x1, some y1 => decide (rect.width > 0 ∧ rect.height > 0 ∧ x1 ≤ width ∧ y1 ≤ height)
  | _, _ => false

/-- The offset in the client's data region, when `len` bytes are there. -/
def regionPtr (offset len : Nat) : Option Nat :=
  match checkedAdd 64 offset len with
  | none => none
  | some stop => if stop > gpuClientDataSize then none else some offset

/-- The rows of `copy_rect` from `row` on. -/
def copyRows (client : Nat → UInt8) (origin : Nat) (rect : Rect) (deviceWidth : Nat) :
    Nat → Nat → Frame → Bool × Frame
  | 0, _, dst => (true, dst)
  | left + 1, row, dst =>
    let rowBytes := rect.width * gpuBpp2d
    let dstStride := deviceWidth * gpuBpp2d
    let srcOff := origin + row * rowBytes
    let dstOff := (rect.y + row) * dstStride + rect.x * gpuBpp2d
    match regionPtr srcOff rowBytes with
    | none => (false, dst)
    | some src =>
      if dstOff + rowBytes > dst.length then (false, dst)
      else copyRows client origin rect deviceWidth left (row + 1)
        { dst with bytes := writeAt dst.bytes dstOff (readAt client src rowBytes) }

def copyRect (client : Nat → UInt8) (dst : Frame) (origin : Nat) (rect : Rect) (deviceWidth : Nat) :
    Bool × Frame :=
  copyRows client origin rect deviceWidth rect.height 0 dst

namespace Handler

def displayInfo (d : Device) (offset : Nat) (h : Handler) : Status × Handler :=
  match d.resolution with
  | none => (.errUnspec, h)
  | some (width, height) =>
    match checkedAdd 64 offset displayInfoLen with
    | none => (.errInvalidBounds, h)
    | some stop =>
      if stop > gpuRegionSize then (.errInvalidBounds, h)
      else (.ok, { h with info := some (offset, width, height) })

/-- `change_resolution` of the device. -/
def changeResolution (d : Device) (width height : Nat) (h : Handler) : Option Frame × Handler :=
  if d.changes then (some (.zeros width height), { h with scanout := some (.zeros width height) })
  else (none, h)

def create2d (d : Device) (resourceId width height : Nat) (format : Format) (h : Handler) :
    Status × Handler :=
  if h.resource.isSome then (.errUnspec, h)
  else if resourceId = gpuDisableScanoutResourceId ∨ resourceId > gpuMaxResources then
    (.errInvalidParameter, h)
  else if format ≠ .b8g8r8a8 ∨ width = 0 ∨ height = 0 then (.errInvalidParameter, h)
  else
    match checkedMul 32 width height with
    | none => (.errInvalidParameter, h)
    | some pixels =>
      match checkedMul 32 pixels gpuBpp2d with
      | none => (.errInvalidParameter, h)
      | some bytes =>
        if bytes > gpuDriverDmaSize / 2 then (.errInvalidParameter, h)
        else
          match h.changeResolution d width height with
          | (none, h) => (.errUnspec, h)
          | (some _, h) => (.ok, { h with resource := some ⟨resourceId, width, height, 0, 0, false, none⟩ })

def attach (resourceId memOffset memSize : Nat) (h : Handler) : Status × Handler :=
  match h.resource with
  | none => (.errInvalidResourceId, h)
  | some resource =>
    if resource.id ≠ resourceId then (.errInvalidResourceId, h)
    else if resource.attached then (.errUnspec, h)
    else
      match checkedMul 32 resource.width resource.height with
      | none => (.errInvalidParameter, h)
      | some pixels =>
        match checkedMul 32 pixels gpuBpp2d with
        | none => (.errInvalidParameter, h)
        | some need =>
          if memSize < need then (.errInvalidParameter, h)
          else
            match checkedAdd 64 memOffset memSize with
            | none => (.errInvalidBounds, h)
            | some stop =>
              if stop > gpuClientDataSize then (.errInvalidBounds, h)
              else (.ok, { h with resource := some { resource with memOffset := memOffset, memSize := memSize, attached := true } })

def detach (resourceId : Nat) (h : Handler) : Status × Handler :=
  match h.resource with
  | none => (.errInvalidResourceId, h)
  | some resource =>
    if resource.id ≠ resourceId then (.errInvalidResourceId, h)
    else (.ok, { h with resource := some { resource with attached := false, transfer := none } })

def setScanout (resourceId scanoutId : Nat) (rect : Rect) (h : Handler) : Status × Handler :=
  if scanoutId ≠ 0 then (.errInvalidScanoutId, h)
  else if resourceId = gpuDisableScanoutResourceId then (.ok, h)
  else
    match h.resource with
    | none => (.errInvalidResourceId, h)
    | some resource =>
      if resource.id ≠ resourceId then (.errInvalidResourceId, h)
      else if rectInside rect resource.width resource.height = false then (.errInvalidBounds, h)
      else (.ok, h)

def transfer (resourceId : Nat) (rect : Rect) (memOffset : Nat) (h : Handler) : Status × Handler :=
  match h.resource with
  | none => (.errInvalidResourceId, h)
  | some resource =>
    if resource.id ≠ resourceId ∨ resource.attached = false then (.errInvalidResourceId, h)
    else if rectInside rect resource.width resource.height = false then (.errInvalidBounds, h)
    else
      match checkedAdd 64 resource.memOffset memOffset with
      | none => (.errInvalidBounds, h)
      | some origin =>
        match (checkedMul 64 rect.width rect.height).bind (checkedMul 64 · gpuBpp2d) with
        | none => (.errInvalidParameter, h)
        | some bytes =>
          match checkedAdd 64 origin bytes with
          | none => (.errInvalidBounds, h)
          | some stop =>
            if stop > resource.memOffset + resource.memSize ∨ stop > gpuClientDataSize then
              (.errInvalidBounds, h)
            else (.ok, { h with resource := some { resource with transfer := some ⟨rect, memOffset⟩ } })

def flush (d : Device) (client : Nat → UInt8) (resourceId : Nat) (rect : Rect) (h : Handler) :
    Status × Handler :=
  match h.resource with
  | none => (.errInvalidResourceId, h)
  | some resource =>
    if resource.id ≠ resourceId ∨ resource.attached = false then (.errInvalidResourceId, h)
    else if rectInside rect resource.width resource.height = false then (.errInvalidBounds, h)
    else
      match resource.transfer with
      | none => (.errInvalidParameter, h)
      | some transfer =>
        match checkedAdd 64 resource.memOffset transfer.memOffset with
        | none => (.errInvalidBounds, h)
        | some origin =>
          match h.changeResolution d resource.width resource.height with
          | (none, h) => (.errUnspec, h)
          | (some buf, h) =>
            match copyRect client buf origin transfer.rect resource.width with
            | (false, buf) => (.errInvalidBounds, { h with scanout := some buf })
            | (true, buf) =>
              let h := { h with scanout := some buf }
              if d.flushes then (.ok, { h with shown := h.scanout }) else (.errUnspec, h)

def unref (resourceId : Nat) (h : Handler) : Status × Handler :=
  match h.resource with
  | none => (.errInvalidResourceId, h)
  | some resource =>
    if resource.id ≠ resourceId then (.errInvalidResourceId, h)
    else (.ok, { h with resource := none })

def handle (d : Device) (client : Nat → UInt8) (h : Handler) : Req → Status × Handler
  | .getDisplayInfo memOffset => h.displayInfo d memOffset
  | .resourceCreate2d resourceId width height format => h.create2d d resourceId width height format
  | .resourceAttachBacking resourceId memOffset memSize => h.attach resourceId memOffset memSize
  | .resourceDetachBacking resourceId => h.detach resourceId
  | .setScanout resourceId scanoutId rect => h.setScanout resourceId scanoutId rect
  | .transferTo2d resourceId rect memOffset => h.transfer resourceId rect memOffset
  | .resourceFlush resourceId rect => h.flush d client resourceId rect
  | .resourceUnref resourceId => h.unref resourceId
  | .resourceCreateBlob | .setScanoutBlob => (.errInvalidParameter, h)

end Handler

/-! ### Runs -/

/-- A request that was answered, with the client's data at that time. -/
structure Answered where
  req : Req
  status : Status
  client : Nat → UInt8

/-- The driver, the client's data region, and the answered requests, the latest first. -/
structure System where
  handler : Handler
  client : Nat → UInt8
  log : List Answered

/-- The client writes its data region, or the driver answers a request. -/
inductive Event
  | client (bytes : Nat → UInt8)
  | request (req : Req) (d : Device)

namespace System

def start : System := ⟨⟨none, none, none, none⟩, fun _ => 0, []⟩

/-- The status of a request and the state behind it. -/
def answer (d : Device) (req : Req) (s : System) : Status × System :=
  match s.handler.handle d s.client req with
  | (status, handler) => (status, { s with handler := handler, log := ⟨req, status, s.client⟩ :: s.log })

def step (s : System) : Event → System
  | .client bytes => { s with client := bytes }
  | .request req d => (s.answer d req).2

def run (events : List Event) : System := events.foldl step start

end System

/-! ### What was transferred -/

/-- Where the backing is that was attached last. -/
def backing : List Answered → Nat
  | [] => 0
  | e :: log =>
    match e.status, e.req with
    | .ok, .resourceAttachBacking _ memOffset _ => memOffset
    | _, _ => backing log

/-- A transfer: its rectangle, the offset of its bytes, and the client's data. -/
structure Source where
  rect : Rect
  origin : Nat
  client : Nat → UInt8

def Source.byte (t : Source) (x y k : Nat) : UInt8 :=
  t.client (t.origin + ((y - t.rect.y) * t.rect.width + (x - t.rect.x)) * gpuBpp2d + k)

/-- The transfers answered with `ok` since the resource was created, the latest first. -/
def transfers : List Answered → List Source
  | [] => []
  | e :: log =>
    match e.status, e.req with
    | .ok, .resourceCreate2d _ _ _ _ => []
    | .ok, .transferTo2d _ rect memOffset => ⟨rect, backing log + memOffset, e.client⟩ :: transfers log
    | _, _ => transfers log

/-- The byte of the latest transfer that covers the pixel, as it was transferred. -/
def transferred (log : List Answered) (x y k : Nat) : UInt8 :=
  match (transfers log).find? fun t => t.rect.Has x y with
  | none => 0
  | some t => t.byte x y k

/-! ### What a request does to the resource -/

inductive Effect : Req → Option Resource → Option Resource → Prop
  | create {id width height : Nat} {format : Format} :
      Effect (.resourceCreate2d id width height format) none (some ⟨id, width, height, 0, 0, false, none⟩)
  | attach {id memOffset memSize : Nat} {r : Resource} : r.attached = false →
      Effect (.resourceAttachBacking id memOffset memSize) (some r)
        (some { r with memOffset := memOffset, memSize := memSize, attached := true })
  | detach {id : Nat} {r : Resource} :
      Effect (.resourceDetachBacking id) (some r) (some { r with attached := false, transfer := none })
  | transfer {id memOffset : Nat} {rect : Rect} {r : Resource} : r.attached = true →
      rectInside rect r.width r.height = true →
      Effect (.transferTo2d id rect memOffset) (some r) (some { r with transfer := some ⟨rect, memOffset⟩ })
  | unref {id : Nat} {r : Resource} : Effect (.resourceUnref id) (some r) none
  | displayInfo {memOffset : Nat} {r : Option Resource} : Effect (.getDisplayInfo memOffset) r r
  | setScanout {id scanoutId : Nat} {rect : Rect} {r : Option Resource} : Effect
      (.setScanout id scanoutId rect) r r
  | flush {id : Nat} {rect : Rect} {r : Option Resource} : Effect (.resourceFlush id rect) r r

section

variable {d : Device} {client : Nat → UInt8} {h h' : Handler} {req : Req} {status : Status}

/-- A flush shows the noted transfer in a frame of zeros. -/
theorem flush_ok {id : Nat} {rect : Rect} (hans : h.handle d client (.resourceFlush id rect) = (.ok, h')) :
    ∃ r t frame, h.resource = some r ∧ r.attached = true ∧ rectInside rect r.width r.height = true ∧
      r.transfer = some t ∧
      copyRect client (.zeros r.width r.height) (r.memOffset + t.memOffset) t.rect r.width = (true, frame) ∧
      h' = { h with scanout := some frame, shown := some frame } := by
  simp only [Handler.handle, Handler.flush] at hans
  cases hres : h.resource with
  | none => simp [hres] at hans
  | some r =>
    simp only [hres] at hans
    split at hans
    · cases hans
    · next hid =>
      split at hans
      · cases hans
      · next hinside =>
        cases htransfer : r.transfer with
        | none => simp [htransfer] at hans
        | some t =>
          simp only [htransfer, Handler.changeResolution, checkedAdd] at hans
          by_cases horigin : r.memOffset + t.memOffset < 2 ^ 64
          · rw [if_pos horigin] at hans
            cases hchanges : d.changes with
            | false => simp [hchanges] at hans
            | true =>
              simp only [hchanges, if_true] at hans
              split at hans
              · cases hans
              · next frame hcopy =>
                split at hans <;> cases hans
                refine ⟨r, t, frame, rfl, ?_, ?_, htransfer, hcopy, by rw [hres]⟩
                · simpa using (not_or.mp hid).2
                · simpa using hinside
          · rw [if_neg horigin] at hans
            cases hans

theorem handle_effect (hans : h.handle d client req = (.ok, h')) : Effect req h.resource h'.resource := by
  cases req with
  | getDisplayInfo memOffset =>
    simp only [Handler.handle, Handler.displayInfo] at hans
    repeat' split at hans
    all_goals cases hans
    exact .displayInfo
  | resourceCreate2d id width height format =>
    cases hres : h.resource with
    | some r => simp [Handler.handle, Handler.create2d, hres] at hans
    | none =>
      simp only [Handler.handle, Handler.create2d, hres] at hans
      repeat' split at hans
      all_goals cases hans
      exact .create
  | resourceAttachBacking id memOffset memSize =>
    cases hres : h.resource with
    | none => simp [Handler.handle, Handler.attach, hres] at hans
    | some r =>
      cases hattached : r.attached with
      | true =>
        simp only [Handler.handle, Handler.attach, hres, hattached, if_true] at hans
        split at hans <;> cases hans
      | false =>
        simp only [Handler.handle, Handler.attach, hres] at hans
        repeat' split at hans
        all_goals cases hans
        exact .attach hattached
  | resourceDetachBacking id =>
    cases hres : h.resource with
    | none => simp [Handler.handle, Handler.detach, hres] at hans
    | some r =>
      simp only [Handler.handle, Handler.detach, hres] at hans
      split at hans <;> cases hans
      exact .detach
  | setScanout id scanoutId rect =>
    simp only [Handler.handle, Handler.setScanout] at hans
    repeat' split at hans
    all_goals cases hans
    all_goals exact .setScanout
  | transferTo2d id rect memOffset =>
    cases hres : h.resource with
    | none => simp [Handler.handle, Handler.transfer, hres] at hans
    | some r =>
      cases hattached : r.attached with
      | false => simp [Handler.handle, Handler.transfer, hres, hattached] at hans
      | true =>
        cases hinside : rectInside rect r.width r.height with
        | false =>
          simp only [Handler.handle, Handler.transfer, hres, hinside, if_true] at hans
          split at hans <;> cases hans
        | true =>
          simp only [Handler.handle, Handler.transfer, hres] at hans
          repeat' split at hans
          all_goals cases hans
          exact .transfer hattached hinside
  | resourceFlush id rect =>
    obtain ⟨r, t, frame, hres, -, -, -, -, rfl⟩ := flush_ok hans
    exact .flush
  | resourceUnref id =>
    cases hres : h.resource with
    | none => simp [Handler.handle, Handler.unref, hres] at hans
    | some r =>
      simp only [Handler.handle, Handler.unref, hres] at hans
      split at hans <;> cases hans
      exact .unref
  | resourceCreateBlob => cases hans
  | setScanoutBlob => cases hans

theorem changeResolution_cases (d : Device) (h : Handler) :
    (∀ width height, h.changeResolution d width height = (none, h)) ∨
      ∀ width height, h.changeResolution d width height =
        (some (.zeros width height), { h with scanout := some (.zeros width height) }) := by
  cases hchanges : d.changes with
  | false => exact .inl fun width height => by simp [Handler.changeResolution, hchanges]
  | true => exact .inr fun width height => by simp [Handler.changeResolution, hchanges]

theorem handle_failed (hans : h.handle d client req = (status, h')) (hstatus : status ≠ .ok) :
    h'.resource = h.resource := by
  rcases changeResolution_cases d h with hchange | hchange <;> cases req <;>
    simp only [Handler.handle, Handler.displayInfo, Handler.create2d, Handler.attach,
      Handler.detach, Handler.setScanout,
      Handler.transfer, Handler.flush, Handler.unref, hchange] at hans
  all_goals repeat' split at hans
  all_goals cases hans
  all_goals first
    | rfl
    | exact absurd rfl hstatus

/-! ### The rows of a copy -/

variable {origin : Nat} {rect : Rect} {dst frame : Frame} {w left row : Nat}

/-- A row is written where its pixels are. -/
theorem pixel_writeRow {f : Frame} {rx rw y0 src x y k : Nat} (hf : f.width = w) (hw : rx + rw ≤ w)
    (hx : x < w) (hk : k < gpuBpp2d) :
    Frame.pixel { f with bytes := writeAt f.bytes (y0 * (w * gpuBpp2d) + rx * gpuBpp2d) (readAt client src (rw * gpuBpp2d)) } x y k =
      if y = y0 ∧ rx ≤ x ∧ x < rx + rw then client (src + (x - rx) * gpuBpp2d + k) else f.pixel x y k := by
  have hlen : (readAt client src (rw * gpuBpp2d)).length = rw * gpuBpp2d := length_readAt
  simp only [Frame.pixel, gpuBpp2d, hf] at *
  have hbase : y0 * (w * 4) = y0 * w * 4 := by ring
  rw [hbase]
  rcases Nat.lt_trichotomy y y0 with hy | rfl | hy
  · have hle : (y + 1) * w ≤ y0 * w := Nat.mul_le_mul_right _ hy
    rw [Nat.add_mul, Nat.one_mul] at hle
    rw [writeAt_of_not_mem (by omega), if_neg (by omega)]
  · by_cases hrow : rx ≤ x ∧ x < rx + rw
    · rw [writeAt_of_mem (by omega) (by omega), if_pos ⟨rfl, hrow⟩, List.getD_eq_getElem?_getD,
        getElem?_readAt, if_pos (by omega)]
      show client _ = client _
      congr 1
      omega
    · rw [writeAt_of_not_mem (by omega), if_neg (fun h => hrow h.2)]
  · have hle : (y0 + 1) * w ≤ y * w := Nat.mul_le_mul_right _ hy
    rw [Nat.add_mul, Nat.one_mul] at hle
    rw [writeAt_of_not_mem (by omega), if_neg (by omega)]

theorem copyRows_pixel (hcopy : copyRows client origin rect w left row dst = (true, frame))
    (hdst : dst.width = w)
    (hw : rect.x + rect.width ≤ w) :
    frame.width = w ∧ ∀ x y k, x < w → k < gpuBpp2d →
      frame.pixel x y k = if rect.x ≤ x ∧ x < rect.x + rect.width ∧ rect.y + row ≤ y ∧
      y < rect.y + row + left then
        client (origin + ((y - rect.y) * rect.width + (x - rect.x)) * gpuBpp2d + k)
      else dst.pixel x y k := by
  induction left generalizing row dst with
  | zero =>
    cases hcopy
    refine ⟨hdst, fun x y k _ _ => ?_⟩
    rw [if_neg (by omega)]
  | succ left ih =>
    rw [copyRows] at hcopy
    split at hcopy
    · cases hcopy
    · next src hsrc =>
      obtain rfl : origin + row * (rect.width * gpuBpp2d) = src := by
        simp only [regionPtr] at hsrc
        repeat' split at hsrc
        all_goals cases hsrc
        rfl
      split at hcopy
      · cases hcopy
      · obtain ⟨hwidth, hpixel⟩ := ih hcopy hdst
        refine ⟨hwidth, fun x y k hx hk => ?_⟩
        rw [hpixel x y k hx hk, pixel_writeRow hdst hw hx hk]
        by_cases hin : rect.x ≤ x ∧ x < rect.x + rect.width
        · by_cases hy : y = rect.y + row
          · subst hy
            rw [if_neg (by omega), if_pos ⟨rfl, hin⟩, if_pos (by omega)]
            congr 1
            rw [Nat.add_sub_cancel_left]
            ring
          · have hrow : ¬ (y = rect.y + row ∧ rect.x ≤ x ∧ x < rect.x + rect.width) := fun h => hy h.1
            rw [if_neg hrow]
            exact if_congr (by omega) rfl rfl
        · rw [if_neg (by omega), if_neg (by omega), if_neg (by omega)]

end

/-! ### The invariant -/

/-- The transfer that the driver has noted is the latest, and inside the resource. -/
structure Noted (h : Handler) (log : List Answered) : Prop where
  offset : ∀ r, h.resource = some r → r.attached = true → r.memOffset = backing log
  transfer : ∀ r t, h.resource = some r → r.transfer = some t → r.attached = true ∧
    t.rect.x + t.rect.width ≤ r.width ∧
    ∃ client rest, transfers log = ⟨t.rect, r.memOffset + t.memOffset, client⟩ :: rest

theorem rectInside_width {rect : Rect} {width height : Nat} (h : rectInside rect width height =
    true) : rect.x + rect.width ≤ width := by
  simp only [rectInside, checkedAdd] at h
  split at h
  · next x1 y1 hx1 _ =>
    split at hx1 <;> cases hx1
    exact (of_decide_eq_true h).2.2.1
  · cases h

theorem backing_of_failed {e : Answered} {log : List Answered} (h : e.status ≠ .ok) :
    backing (e :: log) = backing log := by
  obtain ⟨req, status, client⟩ := e
  cases status <;> first | exact absurd rfl h | rfl

theorem transfers_of_failed {e : Answered} {log : List Answered} (h : e.status ≠ .ok) :
    transfers (e :: log) = transfers log := by
  obtain ⟨req, status, client⟩ := e
  cases status <;> first | exact absurd rfl h | rfl

theorem Noted.answer {d : Device} {req : Req} {s : System} (hs : Noted s.handler s.log) :
    Noted (s.answer d req).2.handler (s.answer d req).2.log := by
  unfold System.answer
  generalize hans : s.handler.handle d s.client req = answer
  obtain ⟨status, h'⟩ := answer
  show Noted h' (⟨req, status, s.client⟩ :: s.log)
  by_cases hstatus : status = .ok
  · subst hstatus
    have heffect := handle_effect hans
    generalize hbefore : s.handler.resource = before at heffect
    generalize hafter : h'.resource = after at heffect
    cases heffect with
    | create =>
      constructor
      · intro r hr hattached
        obtain rfl := Option.some.inj (hafter.symm.trans hr)
        cases hattached
      · intro r t hr ht
        obtain rfl := Option.some.inj (hafter.symm.trans hr)
        cases ht
    | @attach _ memOffset memSize old hold =>
      constructor
      · intro r hr _
        obtain rfl := Option.some.inj (hafter.symm.trans hr)
        rfl
      · intro r t hr ht
        obtain rfl := Option.some.inj (hafter.symm.trans hr)
        have hattached := (hs.transfer old t hbefore ht).1
        rw [hold] at hattached
        cases hattached
    | @detach _ old =>
      constructor
      · intro r hr hattached
        obtain rfl := Option.some.inj (hafter.symm.trans hr)
        cases hattached
      · intro r t hr ht
        obtain rfl := Option.some.inj (hafter.symm.trans hr)
        cases ht
    | @transfer _ memOffset rect old hattached hinside =>
      constructor
      · intro r hr _
        obtain rfl := Option.some.inj (hafter.symm.trans hr)
        exact hs.offset old hbefore hattached
      · intro r t hr ht
        obtain rfl := Option.some.inj (hafter.symm.trans hr)
        cases ht
        refine ⟨hattached, rectInside_width hinside, s.client, transfers s.log, ?_⟩
        show _ :: _ = _ :: _
        rw [hs.offset old hbefore hattached]
    | unref =>
      constructor
      · intro r hr
        cases hafter.symm.trans hr
      · intro r t hr
        cases hafter.symm.trans hr
    | displayInfo => exact ⟨fun r hr => hs.offset r (hbefore.trans (hafter.symm.trans hr)),
        fun r t hr => hs.transfer r t (hbefore.trans (hafter.symm.trans hr))⟩
    | setScanout => exact ⟨fun r hr => hs.offset r (hbefore.trans (hafter.symm.trans hr)),
        fun r t hr => hs.transfer r t (hbefore.trans (hafter.symm.trans hr))⟩
    | flush => exact ⟨fun r hr => hs.offset r (hbefore.trans (hafter.symm.trans hr)),
        fun r t hr => hs.transfer r t (hbefore.trans (hafter.symm.trans hr))⟩
  · have hsame := handle_failed hans hstatus
    constructor
    · intro r hr
      rw [backing_of_failed hstatus]
      exact hs.offset r (hsame.symm.trans hr)
    · intro r t hr
      rw [transfers_of_failed hstatus]
      exact hs.transfer r t (hsame.symm.trans hr)

theorem noted_start : Noted System.start.handler System.start.log := by
  constructor
  · intro r hr
    cases hr
  · intro r t hr
    cases hr

theorem noted_run (events : List Event) : Noted (System.run events).handler (System.run events).log := by
  suffices hfrom : ∀ s : System, Noted s.handler s.log →
    Noted (events.foldl System.step s).handler (events.foldl System.step s).log from
    hfrom .start noted_start
  induction events with
  | nil => exact fun s hs => hs
  | cons event events ih =>
    intro s hs
    refine ih (s.step event) ?_
    cases event with
    | client bytes => exact hs
    | request req d => exact hs.answer

theorem transferred_of_covers {log : List Answered} {t : Source} {rest : List Source} {x y k : Nat}
    (hlog : transfers log = t :: rest)
    (hcovers : t.rect.Has x y) : transferred log x y k = t.byte x y k := by
  have hfind : (t :: rest).find? (fun t => t.rect.Has x y) = some t :=
    List.find?_cons_of_pos (by simpa using hcovers)
  simp only [transferred, hlog, hfind]

/-- A flush shows the latest transfer since the resource was created, with the bytes that the
client's data region holds when the flush is answered, and zeros beside it. These are the bytes that
were transferred where the client has left them alone. -/
theorem flush_shows {events : List Event} {d : Device} {id : Nat} {rect : Rect} {s : System}
    (hans : (System.run events).answer d (.resourceFlush id rect) = (.ok, s)) :
    ∃ frame t rest, s.handler.shown = some frame ∧ transfers s.log = t :: rest ∧
      ∀ x y k, rect.Has x y → k < gpuBpp2d →
        frame.pixel x y k = (if t.rect.Has x y then { t with client := s.client }.byte x y k else 0) ∧
          (t.rect.Has x y → { t with client := s.client }.byte x y k = t.byte x y k →
            frame.pixel x y k = transferred s.log x y k) := by
  have hnoted := noted_run events
  generalize System.run events = before at hans hnoted
  unfold System.answer at hans
  generalize hhandle : before.handler.handle d before.client (.resourceFlush id rect) = answer at hans
  obtain ⟨status, h'⟩ := answer
  cases hans
  obtain ⟨r, note, frame, hres, -, hinside, htransfer, hcopy, rfl⟩ := flush_ok hhandle
  obtain ⟨-, hwidth, client, rest, htransfers⟩ := hnoted.transfer r note hres htransfer
  obtain ⟨hw, hpixel⟩ := copyRows_pixel hcopy rfl hwidth
  refine ⟨frame, _, rest, rfl, htransfers, ?_⟩
  intro x y k hhas hk
  have hx : x < r.width := hhas.2.1.trans_le (rectInside_width hinside)
  have hshown : frame.pixel x y k = if note.rect.Has x y then
      Source.byte ⟨note.rect, r.memOffset + note.memOffset, before.client⟩ x y k else 0 := by
    rw [hpixel x y k hx hk]
    refine if_congr ?_ rfl rfl
    show _ ↔ note.rect.x ≤ x ∧ x < note.rect.x + note.rect.width ∧ note.rect.y ≤ y ∧
      y < note.rect.y + note.rect.height
    omega
  refine ⟨hshown, fun hcovers hsame => ?_⟩
  rw [hshown, if_pos hcovers]
  exact hsame.trans (transferred_of_covers htransfers hcovers).symm

def works : Device := ⟨some (2, 1), true, true⟩

/-- A resource of two pixels and its backing, and a data region of ones. -/
def created : List Event :=
  [.client fun _ => 1, .request (.resourceCreate2d 1 2 1 .b8g8r8a8) works,
    .request (.resourceAttachBacking 1 0 8) works]

def transferredAll : List Event := created ++ [.request (.transferTo2d 1 ⟨0, 0, 2, 1⟩ 0) works]

theorem flush_shows_pixels :
    ∃ frame, ((System.run transferredAll).answer works
      (.resourceFlush 1 ⟨0, 0, 2, 1⟩)).2.handler.shown = some frame ∧
      frame.pixel 1 0 3 = 1 := by
  obtain ⟨frame, t, rest, hshown, htransfers, hpixel⟩ :=
    @flush_shows transferredAll works 1 ⟨0, 0, 2, 1⟩ _ rfl
  refine ⟨frame, hshown, ?_⟩
  rw [(hpixel 1 0 3 (by decide) (by decide)).1]
  cases htransfers
  rfl

/-- Of two transfers before a flush only the second is shown. -/
theorem flush_misses : ¬ ∀ (events : List Event) (d : Device) (id : Nat) (rect : Rect) (s : System),
    (System.run events).answer d (.resourceFlush id rect) = (.ok, s) →
      ∃ frame, s.handler.shown = some frame ∧
        ∀ x y k, rect.Has x y → k < gpuBpp2d → frame.pixel x y k = transferred s.log x y k := by
  intro h
  obtain ⟨frame, hshown, hpixel⟩ := h (created ++ [.request (.transferTo2d 1 ⟨0, 0, 1, 1⟩ 0) works,
    .request (.transferTo2d 1 ⟨1, 0, 1, 1⟩ 4) works])
    works 1 ⟨0, 0, 2, 1⟩ _ rfl
  have hzero := hpixel 0 0 0 (by decide) (by decide)
  cases hshown
  revert hzero
  decide

end Lerux.Gpu.Driver
