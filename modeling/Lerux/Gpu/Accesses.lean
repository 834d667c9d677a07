import Lerux.Base.Outcome
import Lerux.Gpu.Driver

/-!
# What the graphics driver touches

The bounds of a flush are checked when the resource is created, when its backing is attached and
when the transfer is noted, and the copy relies on all three. Here the arithmetic that is not
checked and the conversions that are expected to succeed can fail, and every access to shared memory
is written down.

Whatever was requested before, a request ends as `Handler.handle` says, and its accesses are inside
what they are meant for (`requests_safe`).
-/

namespace Lerux.Gpu.Driver

open Lerux.Base

inductive Fault
  | overflow
  | expect
  deriving DecidableEq

inductive Access
  /-- From the client's data region to the frame. -/
  | copy (src dst len : Nat)
  /-- Into the driver's data region. -/
  | info (off len : Nat)
  /-- The flag of the display info in the driver's event word. -/
  | event
  deriving DecidableEq

abbrev Checked : Type → Type := EStateM Fault (List Access)

namespace Checked

/-- A sum that is not checked. -/
def add64 (a b : Nat) : Checked Nat := if a + b < 2 ^ 64 then pure (a + b) else throw .overflow

/-- A product that is not checked. -/
def mul64 (a b : Nat) : Checked Nat := if a * b < 2 ^ 64 then pure (a * b) else throw .overflow

/-- A conversion to `usize` that is expected to succeed. -/
def usize (n : Nat) : Checked Nat := if n < 2 ^ 64 then pure n else throw .expect

def access (a : Access) : Checked Unit := modify (· ++ [a])

def regionPtr (offset len : Nat) : Checked (Option Nat) :=
  match checkedAdd 64 offset len with
  | none => pure none
  | some stop => do
    if stop > (← usize gpuClientDataSize) then pure none else pure (some offset)

/-- The rows of `copy_rect` from `row` on. -/
def copyRows (client : Nat → UInt8) (origin rowBytes dstStride x y : Nat) : Nat → Nat → Frame →
    Checked (Bool × Frame)
  | 0, _, dst => pure (true, dst)
  | left + 1, row, dst => do
    let srcOff ← add64 origin (← usize (← mul64 row rowBytes))
    let dstOff ← add64 (← mul64 (← add64 y row) dstStride) (← mul64 x (← usize gpuBpp2d))
    match ← regionPtr srcOff rowBytes with
    | none => pure (false, dst)
    | some src =>
      if (← add64 dstOff rowBytes) > dst.length then pure (false, dst)
      else
        access (.copy src dstOff rowBytes)
        copyRows client origin rowBytes dstStride x y left (row + 1)
          { dst with bytes := writeAt dst.bytes dstOff (readAt client src rowBytes) }

def copyRect (client : Nat → UInt8) (dst : Frame) (origin : Nat) (rect : Rect) (deviceWidth : Nat) :
    Checked (Bool × Frame) := do
  let bpp ← usize gpuBpp2d
  let width ← usize rect.width
  let height ← usize rect.height
  let x ← usize rect.x
  let y ← usize rect.y
  let dstStride ← mul64 (← usize deviceWidth) bpp
  let rowBytes ← mul64 width bpp
  copyRows client origin rowBytes dstStride x y height 0 dst

def displayInfo (d : Device) (offset : Nat) (h : Handler) : Checked (Status × Handler) :=
  match d.resolution with
  | none => pure (.errUnspec, h)
  | some (width, height) =>
    match checkedAdd 64 offset displayInfoLen with
    | none => pure (.errInvalidBounds, h)
    | some stop => do
      if stop > (← usize gpuRegionSize) then pure (.errInvalidBounds, h)
      else
        access (.info offset displayInfoLen)
        access .event
        pure (.ok, { h with info := some (offset, width, height) })

def transfer (resourceId : Nat) (rect : Rect) (memOffset : Nat) (h : Handler) :
    Checked (Status × Handler) :=
  match h.resource with
  | none => pure (.errInvalidResourceId, h)
  | some resource =>
    if resource.id ≠ resourceId ∨ resource.attached = false then pure (.errInvalidResourceId, h)
    else if rectInside rect resource.width resource.height = false then pure (.errInvalidBounds, h)
    else
      match checkedAdd 64 resource.memOffset memOffset with
      | none => pure (.errInvalidBounds, h)
      | some origin =>
        match (checkedMul 64 rect.width rect.height).bind (checkedMul 64 · gpuBpp2d) with
        | none => pure (.errInvalidParameter, h)
        | some bytes =>
          match checkedAdd 64 origin bytes with
          | none => pure (.errInvalidBounds, h)
          | some stop => do
            if stop > (← add64 resource.memOffset resource.memSize) ∨ stop > gpuClientDataSize then
              pure (.errInvalidBounds, h)
            else pure (.ok, { h with resource := some { resource with transfer := some ⟨rect,
              memOffset⟩ } })

def flush (d : Device) (client : Nat → UInt8) (resourceId : Nat) (rect : Rect) (h : Handler) :
    Checked (Status × Handler) :=
  match h.resource with
  | none => pure (.errInvalidResourceId, h)
  | some resource =>
    if resource.id ≠ resourceId ∨ resource.attached = false then pure (.errInvalidResourceId, h)
    else if rectInside rect resource.width resource.height = false then pure (.errInvalidBounds, h)
    else
      match resource.transfer with
      | none => pure (.errInvalidParameter, h)
      | some transfer =>
        match checkedAdd 64 resource.memOffset transfer.memOffset with
        | none => pure (.errInvalidBounds, h)
        | some origin =>
          match h.changeResolution d resource.width resource.height with
          | (none, h) => pure (.errUnspec, h)
          | (some buf, h) => do
            match ← copyRect client buf origin transfer.rect resource.width with
            | (false, buf) => pure (.errInvalidBounds, { h with scanout := some buf })
            | (true, buf) =>
              let h := { h with scanout := some buf }
              if d.flushes then pure (.ok, { h with shown := h.scanout }) else pure (.errUnspec, h)

/-- The other requests check all their arithmetic and touch no shared memory. -/
def handle (d : Device) (client : Nat → UInt8) (h : Handler) : Req → Checked (Status × Handler)
  | .getDisplayInfo memOffset => displayInfo d memOffset h
  | .transferTo2d resourceId rect memOffset => transfer resourceId rect memOffset h
  | .resourceFlush resourceId rect => flush d client resourceId rect h
  | req => pure (h.handle d client req)

end Checked

/-! ### What a resource relies on -/

/-- The bounds of a resource that were checked: of its frame, its backing, and the noted transfer. -/
structure Sound (r : Resource) : Prop where
  positive : 0 < r.width ∧ 0 < r.height
  frame : r.width * r.height * gpuBpp2d ≤ gpuDriverDmaSize / 2
  backing : r.attached = true → r.memOffset + r.memSize ≤ gpuClientDataSize
  noted : ∀ t, r.transfer = some t → r.attached = true ∧ t.rect.x + t.rect.width ≤ r.width ∧
    t.rect.y + t.rect.height ≤ r.height ∧ t.memOffset + t.rect.width * t.rect.height * gpuBpp2d ≤ r.memSize

def Handler.Sound (h : Handler) : Prop := ∀ r, h.resource = some r → Driver.Sound r

theorem rectInside_bounds {rect : Rect} {width height : Nat} (h : rectInside rect width height = true) :
    0 < rect.width ∧ 0 < rect.height ∧ rect.x + rect.width ≤ width ∧ rect.y + rect.height ≤ height := by
  unfold rectInside at h
  split at h
  · next x1 y1 hx hy =>
    obtain ⟨hw, hh, hx1, hy1⟩ := of_decide_eq_true h
    rw [(checkedAdd_eq_some hx).2, (checkedAdd_eq_some hy).2]
    exact ⟨hw, hh, hx1, hy1⟩
  · cases h

section sound

variable {d : Device} {client : Nat → UInt8} {h h' : Handler}

theorem sound_create {id width height : Nat} {format : Format}
    (hans : h.create2d d id width height format = (.ok, h')) :
    h'.Sound := by
  unfold Handler.create2d at hans
  split_ifs at hans with hsome hid hformat
  · cases hans
  · cases hans
  · cases hans
  rw [not_or, not_or] at hformat
  split at hans
  · cases hans
  · next pixels hpixels =>
    split at hans
    · cases hans
    · next bytes hbytes =>
      split_ifs at hans with hsize
      · cases hans
      · split at hans
        · cases hans
        · cases hans
          intro r hr
          obtain rfl := Option.some.inj hr
          refine ⟨⟨Nat.pos_of_ne_zero hformat.2.1, Nat.pos_of_ne_zero hformat.2.2⟩, ?_,
            fun hattached => (by cases hattached),
            fun t ht => (by cases ht)⟩
          rw [(checkedMul_eq_some hpixels).2, (checkedMul_eq_some hbytes).2]
          exact Nat.le_of_not_gt hsize

theorem sound_attach {id memOffset memSize : Nat} (hs : h.Sound)
    (hans : h.attach id memOffset memSize = (.ok, h')) : h'.Sound := by
  unfold Handler.attach at hans
  split at hans
  · cases hans
  · next r hres =>
    split_ifs at hans with hid hattached
    · cases hans
    · cases hans
    split at hans
    · cases hans
    split at hans
    · cases hans
    split_ifs at hans
    · cases hans
    split at hans
    · cases hans
    · next stop hstop =>
      split_ifs at hans with hend
      · cases hans
      · cases hans
        intro r' hr'
        obtain rfl := Option.some.inj hr'
        refine ⟨(hs r hres).positive, (hs r hres).frame, fun _ => ?_, fun t ht => ?_⟩
        · rw [(checkedAdd_eq_some hstop).2]
          exact Nat.le_of_not_gt hend
        · exact absurd ((hs r hres).noted t ht).1 hattached

theorem sound_transfer {id memOffset : Nat} {rect : Rect} (hs : h.Sound)
    (hans : h.transfer id rect memOffset = (.ok, h')) :
    h'.Sound := by
  unfold Handler.transfer at hans
  split at hans
  · cases hans
  · next r hres =>
    split_ifs at hans with hid hinside
    · cases hans
    · cases hans
    split at hans
    · cases hans
    · next origin horigin =>
      split at hans
      · cases hans
      · next bytes hbytes =>
        split at hans
        · cases hans
        · next stop hstop =>
          split_ifs at hans with hend
          · cases hans
          · cases hans
            intro r' hr'
            obtain rfl := Option.some.inj hr'
            refine ⟨(hs r hres).positive, (hs r hres).frame, (hs r hres).backing, fun t ht => ?_⟩
            obtain rfl := Option.some.inj ht
            obtain ⟨_, _, hx, hy⟩ := rectInside_bounds (by simpa using hinside)
            obtain ⟨pixels, hpixels, hscaled⟩ := Option.bind_eq_some_iff.mp hbytes
            have h1 := (checkedAdd_eq_some horigin).2
            have h2 := (checkedAdd_eq_some hstop).2
            have h3 : rect.width * rect.height * gpuBpp2d = bytes := by
              rw [(checkedMul_eq_some hpixels).2, (checkedMul_eq_some hscaled).2]
            refine ⟨by simpa using (not_or.mp hid).2, hx, hy, ?_⟩
            change memOffset + rect.width * rect.height * gpuBpp2d ≤ r.memSize
            rw [h3]
            omega

theorem sound_handle {req : Req} {status : Status} (hs : h.Sound)
    (hans : h.handle d client req = (status, h')) : h'.Sound := by
  intro r hr
  by_cases hstatus : status = .ok
  · subst hstatus
    have heffect := handle_effect hans
    rw [hr] at heffect
    generalize hbefore : h.resource = before at heffect
    cases heffect with
    | create => exact sound_create hans _ hr
    | attach _ => exact sound_attach hs hans _ hr
    | transfer _ _ => exact sound_transfer hs hans _ hr
    | @detach _ old =>
      exact ⟨(hs old hbefore).positive, (hs old hbefore).frame,
        fun hattached => (by cases hattached), fun t ht => (by cases ht)⟩
    | displayInfo => exact hs r hbefore
    | setScanout => exact hs r hbefore
    | flush => exact hs r hbefore
  · exact hs r (by rw [← handle_failed hans hstatus]; exact hr)

end sound

/-! ### What a request touches -/

/-- A copy from the backing of a resource to the rectangle of its transfer. -/
def CopyInside (r : Resource) (t : Transfer) : Access → Prop
  | .copy src dst len =>
    (r.memOffset ≤ src ∧ src + len ≤ r.memOffset + r.memSize ∧ src + len ≤ gpuClientDataSize) ∧
      ∀ i < len, dst + i < r.width * r.height * gpuBpp2d ∧
        ∃ x y k, t.rect.Has x y ∧ k < gpuBpp2d ∧ dst + i = (y * r.width + x) * gpuBpp2d + k
  | _ => False

/-- What an access of a request may be. -/
def Within (resource : Option Resource) (req : Req) : Access → Prop
  | .info off len => (∃ memOffset, req = .getDisplayInfo memOffset) ∧ off + len ≤ gpuRegionSize
  | .event => ∃ memOffset, req = .getDisplayInfo memOffset
  | access => ∃ id rect r t, req = .resourceFlush id rect ∧ resource = some r ∧ r.attached = true ∧
    r.transfer = some t ∧
      CopyInside r t access

/-- A computation that never fails, with what it yields and what it touches. -/
def Yields {α : Type} (x : Checked α) (a : α) (P : Access → Prop) : Prop :=
  ∀ s, ∃ more, x s = .ok a (s ++ more) ∧ ∀ access ∈ more, P access

namespace Yields

variable {α β : Type} {a : α} {b : β} {P Q : Access → Prop} {x : Checked α} {f : α → Checked β}

theorem pure : Yields (Pure.pure a) a P := fun s => ⟨[], by rw [List.append_nil]; rfl, fun _ h => nomatch h⟩

theorem bind (hx : Yields x a P) (hf : Yields (f a) b P) : Yields (x >>= f) b P := by
  intro s
  obtain ⟨first, hfirst, hfirstP⟩ := hx s
  obtain ⟨second, hsecond, hsecondP⟩ := hf (s ++ first)
  refine ⟨first ++ second, ?_, fun access h => ?_⟩
  · change EStateM.bind x f s = _
    unfold EStateM.bind
    rw [hfirst, ← List.append_assoc]
    exact hsecond
  · rcases List.mem_append.mp h with h | h
    · exact hfirstP access h
    · exact hsecondP access h

theorem mono (h : Yields x a P) (hPQ : ∀ access, P access → Q access) : Yields x a Q := by
  intro s
  obtain ⟨more, hmore, hP⟩ := h s
  exact ⟨more, hmore, fun access hmem => hPQ access (hP access hmem)⟩

theorem access {one : Access} (h : P one) : Yields (Checked.access one) () P := fun _ =>
  ⟨[one], rfl, fun _ hmem => by rwa [List.mem_singleton.mp hmem]⟩

theorem add64 {m n : Nat} (h : m + n < 2 ^ 64) : Yields (Checked.add64 m n) (m + n) P := by
  rw [Checked.add64, if_pos h]
  exact pure

theorem mul64 {m n : Nat} (h : m * n < 2 ^ 64) : Yields (Checked.mul64 m n) (m * n) P := by
  rw [Checked.mul64, if_pos h]
  exact pure

theorem usize {n : Nat} (h : n < 2 ^ 64) : Yields (Checked.usize n) n P := by
  rw [Checked.usize, if_pos h]
  exact pure

theorem regionPtr (offset len : Nat) : Yields (Checked.regionPtr offset len)
    (Driver.regionPtr offset len) P := by
  unfold Checked.regionPtr Driver.regionPtr
  cases checkedAdd 64 offset len with
  | none => exact pure
  | some stop =>
    refine bind (usize (by decide)) ?_
    by_cases h : stop > gpuClientDataSize
    · simp only [if_pos h]
      exact pure
    · simp only [if_neg h]
      exact pure

end Yields

section rows

variable {client : Nat → UInt8} {r : Resource} {t : Transfer}

/-- A row of the copy is inside. -/
theorem row_inside (hs : Sound r) (ht : r.transfer = some t) {row : Nat} (hrow : row < t.rect.height) :
    CopyInside r t (.copy (r.memOffset + t.memOffset + row * (t.rect.width * gpuBpp2d))
      ((t.rect.y + row) * (r.width * gpuBpp2d) + t.rect.x * gpuBpp2d) (t.rect.width * gpuBpp2d)) := by
  obtain ⟨hattached, hx, hy, hsize⟩ := hs.noted t ht
  have hbacking := hs.backing hattached
  have hrows : (row + 1) * (t.rect.width * gpuBpp2d) ≤ t.rect.height * (t.rect.width * gpuBpp2d) :=
    Nat.mul_le_mul_right _ hrow
  have hall : t.rect.height * (t.rect.width * gpuBpp2d) = t.rect.width * t.rect.height * gpuBpp2d := by ring
  have hone : (row + 1) * (t.rect.width * gpuBpp2d) = row * (t.rect.width * gpuBpp2d) +
    t.rect.width * gpuBpp2d := by ring
  refine ⟨⟨by omega, by omega, by omega⟩, fun i hi => ?_⟩
  obtain ⟨column, k, rfl, hk, hcolumn⟩ : ∃ column k, i = column * gpuBpp2d + k ∧ k < gpuBpp2d ∧
    column < t.rect.width :=
    ⟨i / gpuBpp2d, i % gpuBpp2d, (Nat.div_add_mod' i gpuBpp2d).symm, Nat.mod_lt _ (by decide),
      Nat.div_lt_of_lt_mul (by rwa [Nat.mul_comm])⟩
  have hplace : (t.rect.y + row) * (r.width * gpuBpp2d) + t.rect.x * gpuBpp2d + (column * gpuBpp2d + k) =
      ((t.rect.y + row) * r.width + (t.rect.x + column)) * gpuBpp2d + k := by ring
  refine ⟨?_, t.rect.x + column, t.rect.y + row, k, ⟨by omega, by omega, by omega, by omega⟩, hk, hplace⟩
  rw [hplace]
  have hpixel : (t.rect.y + row) * r.width + (t.rect.x + column) + 1 ≤ r.width * r.height := by
    have hle : (t.rect.y + row + 1) * r.width ≤ r.height * r.width := Nat.mul_le_mul_right _ (by omega)
    have hnext : (t.rect.y + row + 1) * r.width = (t.rect.y + row) * r.width + r.width := by ring
    have hcomm : r.height * r.width = r.width * r.height := Nat.mul_comm _ _
    omega
  have hbytes := Nat.mul_le_mul_right gpuBpp2d hpixel
  rw [Nat.add_mul, Nat.one_mul] at hbytes
  omega

/-- The offsets of a row are small. -/
theorem row_bounds (hs : Sound r) (ht : r.transfer = some t) {row : Nat} (hrow : row < t.rect.height) :
    r.memOffset + t.memOffset + row * (t.rect.width * gpuBpp2d) + t.rect.width * gpuBpp2d < 2 ^ 64 ∧
      (t.rect.y + row) * (r.width * gpuBpp2d) + t.rect.x * gpuBpp2d + t.rect.width * gpuBpp2d < 2 ^ 64 ∧
      t.rect.y + row < 2 ^ 64 := by
  obtain ⟨hattached, hx, hy, hsize⟩ := hs.noted t ht
  have hbacking := hs.backing hattached
  have hframe := hs.frame
  have hdata : gpuClientDataSize < 2 ^ 63 := by decide
  have hdma : gpuDriverDmaSize / 2 < 2 ^ 63 := by decide
  have hrows : (row + 1) * (t.rect.width * gpuBpp2d) ≤ t.rect.height * (t.rect.width * gpuBpp2d) :=
    Nat.mul_le_mul_right _ hrow
  have hall : t.rect.height * (t.rect.width * gpuBpp2d) = t.rect.width * t.rect.height * gpuBpp2d := by ring
  have hone : (row + 1) * (t.rect.width * gpuBpp2d) = row * (t.rect.width * gpuBpp2d) +
    t.rect.width * gpuBpp2d := by ring
  have hdown : (t.rect.y + row + 1) * (r.width * gpuBpp2d) ≤ r.height * (r.width * gpuBpp2d) :=
    Nat.mul_le_mul_right _ (by omega)
  have hnext : (t.rect.y + row + 1) * (r.width * gpuBpp2d) =
    (t.rect.y + row) * (r.width * gpuBpp2d) + r.width * gpuBpp2d := by ring
  have hcomm : r.height * (r.width * gpuBpp2d) = r.width * r.height * gpuBpp2d := by ring
  have hwide : (t.rect.x + t.rect.width) * gpuBpp2d ≤ r.width * gpuBpp2d := Nat.mul_le_mul_right _ hx
  rw [Nat.add_mul] at hwide
  have hbpp : 0 < gpuBpp2d := by decide
  have htall : (t.rect.y + row) * 1 ≤ (t.rect.y + row) * (r.width * gpuBpp2d) :=
    Nat.mul_le_mul_left _ (Nat.mul_pos hs.positive.1 hbpp)
  exact ⟨by omega, by omega, by omega⟩

theorem copyRows_succ (origin : Nat) (rect : Rect) (w left row : Nat) (dst : Frame) :
    Driver.copyRows client origin rect w (left + 1) row dst =
      match Driver.regionPtr (origin + row * (rect.width * gpuBpp2d)) (rect.width * gpuBpp2d) with
      | none => (false, dst)
      | some src =>
        if (rect.y + row) * (w * gpuBpp2d) + rect.x * gpuBpp2d +
          rect.width * gpuBpp2d > dst.length then (false, dst)
        else Driver.copyRows client origin rect w left (row + 1)
          { dst with
            bytes := writeAt dst.bytes ((rect.y + row) * (w * gpuBpp2d) + rect.x * gpuBpp2d)
              (readAt client src (rect.width * gpuBpp2d)) } := rfl

theorem regionPtr_eq_some {offset len src : Nat} (h : Driver.regionPtr offset len = some src) :
    offset = src := by
  unfold Driver.regionPtr at h
  split at h
  · cases h
  · split_ifs at h
    exact Option.some.inj h

/-- The copy ends as it does without overflow, and stays inside. -/
theorem copyRows_yields (hs : Sound r) (ht : r.transfer = some t) (left row : Nat)
    (hrows : row + left = t.rect.height) (dst : Frame) :
    Yields
      (Checked.copyRows client (r.memOffset + t.memOffset) (t.rect.width * gpuBpp2d)
        (r.width * gpuBpp2d) t.rect.x t.rect.y left row dst)
      (Driver.copyRows client (r.memOffset + t.memOffset) t.rect r.width left row dst)
        (CopyInside r t) := by
  induction left generalizing row dst with
  | zero => exact .pure
  | succ left ih =>
    have hinside : CopyInside r t (.copy (r.memOffset + t.memOffset + row * (t.rect.width * gpuBpp2d))
        ((t.rect.y + row) * (r.width * gpuBpp2d) + t.rect.x * gpuBpp2d) (t.rect.width * gpuBpp2d)) :=
      row_inside hs ht (by omega)
    obtain ⟨hsrc, hdst, hdown⟩ := @row_bounds r t hs ht row (by omega)
    have hbpp : gpuBpp2d < 2 ^ 64 := by decide
    rw [copyRows_succ]
    unfold Checked.copyRows
    refine .bind (.mul64 (by omega)) (.bind (.usize (by omega)) (.bind (.add64 (by omega)) ?_))
    refine .bind (.add64 (by omega)) (.bind (.mul64 (by omega))
      (.bind (.usize hbpp) (.bind (.mul64 (by omega)) ?_)))
    refine .bind (.add64 (by omega)) (.bind (.regionPtr _ _) ?_)
    cases hregion : Driver.regionPtr (r.memOffset + t.memOffset + row * (t.rect.width * gpuBpp2d))
      (t.rect.width * gpuBpp2d) with
    | none => exact .pure
    | some src =>
      obtain rfl := regionPtr_eq_some hregion
      refine .bind (.add64 (by omega)) ?_
      by_cases hfits : (t.rect.y + row) * (r.width * gpuBpp2d) + t.rect.x * gpuBpp2d +
        t.rect.width * gpuBpp2d > dst.length
      · simp only [if_pos hfits]
        exact .pure
      · simp only [if_neg hfits]
        exact .bind (.access hinside) (ih (row + 1) (by omega) _)

theorem copyRect_yields (hs : Sound r) (ht : r.transfer = some t) (dst : Frame) :
    Yields (Checked.copyRect client dst (r.memOffset + t.memOffset) t.rect r.width)
      (Driver.copyRect client dst (r.memOffset + t.memOffset) t.rect r.width) (CopyInside r t) := by
  obtain ⟨_, hx, hy, _⟩ := hs.noted t ht
  have hframe := hs.frame
  have hbpp : gpuBpp2d < 2 ^ 64 := by decide
  have hone : 1 ≤ gpuBpp2d := by decide
  have hdma : gpuDriverDmaSize / 2 < 2 ^ 63 := by decide
  have hstride : r.width * gpuBpp2d * 1 ≤ r.width * gpuBpp2d * r.height :=
    Nat.mul_le_mul_left _ hs.positive.2
  have hcomm : r.width * gpuBpp2d * r.height = r.width * r.height * gpuBpp2d := by ring
  have hwidth : r.width * 1 ≤ r.width * gpuBpp2d := Nat.mul_le_mul_left _ hone
  have hheight : r.height * 1 ≤ r.height * (r.width * gpuBpp2d) :=
    Nat.mul_le_mul_left _ (Nat.mul_pos hs.positive.1 hone)
  have hcomm' : r.height * (r.width * gpuBpp2d) = r.width * r.height * gpuBpp2d := by ring
  have hrow : t.rect.width * gpuBpp2d ≤ r.width * gpuBpp2d := Nat.mul_le_mul_right _ (by omega)
  unfold Checked.copyRect Driver.copyRect
  refine .bind (.usize hbpp) (.bind (.usize (by omega))
    (.bind (.usize (by omega)) (.bind (.usize (by omega)) ?_)))
  refine .bind (.usize (by omega)) (.bind (.usize (by omega))
    (.bind (.mul64 (by omega)) (.bind (.mul64 (by omega)) ?_)))
  exact copyRows_yields hs ht t.rect.height 0 (Nat.zero_add _) dst

end rows

/-! ### Requests -/

section requests

variable {h : Handler}

theorem displayInfo_yields (d : Device) (memOffset : Nat) (h : Handler) :
    Yields (Checked.displayInfo d memOffset h) (h.displayInfo d memOffset)
      (Within h.resource (.getDisplayInfo memOffset)) := by
  unfold Checked.displayInfo Handler.displayInfo
  cases d.resolution with
  | none => exact .pure
  | some size =>
    cases hstop : checkedAdd 64 memOffset displayInfoLen with
    | none => exact .pure
    | some stop =>
      refine .bind (.usize (by decide)) ?_
      by_cases hend : stop > gpuRegionSize
      · simp only [if_pos hend]
        exact .pure
      · have hinside : memOffset + displayInfoLen ≤ gpuRegionSize := by
          rw [(checkedAdd_eq_some hstop).2]
          exact Nat.le_of_not_gt hend
        simp only [if_neg hend]
        exact .bind (.access ⟨⟨_, rfl⟩, hinside⟩) (.bind (.access ⟨_, rfl⟩) .pure)

theorem transfer_yields (hs : h.Sound) (id : Nat) (rect : Rect) (memOffset : Nat) (P : Access → Prop) :
    Yields (Checked.transfer id rect memOffset h) (h.transfer id rect memOffset) P := by
  unfold Checked.transfer Handler.transfer
  cases hres : h.resource with
  | none => exact .pure
  | some r =>
    by_cases hid : r.id ≠ id ∨ r.attached = false
    · simp only [if_pos hid]
      exact .pure
    by_cases hinside : rectInside rect r.width r.height = false
    · simp only [if_neg hid, if_pos hinside]
      exact .pure
    simp only [if_neg hid, if_neg hinside]
    cases checkedAdd 64 r.memOffset memOffset with
    | none => exact .pure
    | some origin =>
      cases (checkedMul 64 rect.width rect.height).bind (checkedMul 64 · gpuBpp2d) with
      | none => exact .pure
      | some bytes =>
        cases hstop : checkedAdd 64 origin bytes with
        | none =>
          simp only [hstop]
          exact .pure
        | some stop =>
          -- the only sum that is not checked: the end of the backing
          have hbacking : r.memOffset + r.memSize < 2 ^ 64 :=
            lt_of_le_of_lt ((hs r hres).backing (by simpa using (not_or.mp hid).2)) (by decide)
          simp only [hstop]
          refine .bind (.add64 hbacking) ?_
          by_cases hend : stop > r.memOffset + r.memSize ∨ stop > gpuClientDataSize
          · simp only [if_pos hend]
            exact .pure
          · simp only [if_neg hend]
            exact .pure

theorem flush_yields (hs : h.Sound) (d : Device) (client : Nat → UInt8) (id : Nat) (rect : Rect) :
    Yields (Checked.flush d client id rect h) (h.flush d client id rect)
      (Within h.resource (.resourceFlush id rect)) := by
  unfold Checked.flush Handler.flush
  cases hres : h.resource with
  | none => exact .pure
  | some r =>
    by_cases hid : r.id ≠ id ∨ r.attached = false
    · simp only [if_pos hid]
      exact .pure
    by_cases hinside : rectInside rect r.width r.height = false
    · simp only [if_neg hid, if_pos hinside]
      exact .pure
    simp only [if_neg hid, if_neg hinside]
    cases ht : r.transfer with
    | none => exact .pure
    | some t =>
      cases horigin : checkedAdd 64 r.memOffset t.memOffset with
      | none =>
        simp only [horigin]
        exact .pure
      | some origin =>
        obtain rfl := (checkedAdd_eq_some horigin).2
        have hwithin : ∀ access, CopyInside r t access →
          Within (some r) (.resourceFlush id rect) access := by
          intro access hcopy
          cases access with
          | copy src dst len => exact ⟨id, rect, r, t, rfl, rfl,
            by simpa using (not_or.mp hid).2, ht, hcopy⟩
          | info off len => exact hcopy.elim
          | event => exact hcopy.elim
        simp only [horigin]
        rcases changeResolution_cases d h with hchange | hchange
        · simp only [hchange]
          exact .pure
        · simp only [hchange]
          refine .bind ((copyRect_yields (hs r hres) ht _).mono hwithin) ?_
          generalize copyRect client (.zeros r.width r.height)
            (r.memOffset + t.memOffset) t.rect r.width = result
          obtain ⟨copied, frame⟩ := result
          cases copied with
          | false => exact .pure
          | true =>
            cases d.flushes with
            | false => exact .pure
            | true => exact .pure

/-- A request ends as it does without overflow, and touches what it is meant to. -/
theorem handle_yields (hs : h.Sound) (d : Device) (client : Nat → UInt8) (req : Req) :
    Yields (Checked.handle d client h req) (h.handle d client req) (Within h.resource req) := by
  cases req with
  | getDisplayInfo memOffset => exact displayInfo_yields d memOffset h
  | transferTo2d id rect memOffset => exact transfer_yields hs id rect memOffset _
  | resourceFlush id rect => exact flush_yields hs d client id rect
  | _ => exact .pure

end requests

/-- A request with the answers of the device, and the client's data when it is answered. -/
structure Call where
  req : Req
  device : Device
  client : Nat → UInt8

/-- The requests so far, from a driver without a resource. -/
def serve (calls : List Call) : Checked Handler :=
  calls.foldlM (fun h call => do return (← Checked.handle call.device call.client h call.req).2)
    System.start.handler

theorem serve_run {h : Handler} (hs : h.Sound) (calls : List Call) (s : List Access) :
    ∃ last s', (calls.foldlM (fun h call => do return (← Checked.handle call.device call.client h call.req).2) h : Checked Handler) s =
      .ok last s' ∧ last.Sound := by
  induction calls generalizing h s with
  | nil => exact ⟨h, s, rfl, hs⟩
  | cons call calls ih =>
    obtain ⟨more, hcall, _⟩ := handle_yields hs call.device call.client call.req s
    obtain ⟨last, s', hrun, hlast⟩ := ih (sound_handle hs (Prod.mk.eta).symm) (s ++ more)
    refine ⟨last, s', ?_, hlast⟩
    rw [List.foldlM_cons]
    change EStateM.bind (EStateM.bind _ _) _ s = _
    unfold EStateM.bind
    rw [hcall]
    exact hrun

/-- After any requests a request ends without a fault; one that is answered with an error leaves the
resource alone; and what a request touches is inside the backing, the client's data region, the
rectangle of the transfer in the frame, and the driver's data region with the flag of its event
word. -/
theorem requests_safe (calls : List Call) (call : Call) :
    ∃ h touched status h' more, serve calls [] = .ok h touched ∧
      Checked.handle call.device call.client h call.req touched = .ok (status, h') (touched ++ more) ∧
      (status ≠ .ok → h'.resource = h.resource) ∧ ∀ access ∈ more, Within h.resource call.req access := by
  have hstart : System.start.handler.Sound := fun r hr => nomatch hr
  obtain ⟨h, touched, hrun, hs⟩ := serve_run hstart calls []
  obtain ⟨more, hcall, hwithin⟩ := handle_yields hs call.device call.client call.req touched
  exact ⟨h, touched, _, _, more, hrun, hcall, handle_failed (Prod.mk.eta).symm, hwithin⟩

/-- A resource of two pixels. -/
def createTwo : Call := ⟨.resourceCreate2d 1 2 1 .b8g8r8a8, works, fun _ => 0⟩

/-- A second resource is refused, and the first one stays. -/
theorem requests_safe_refused :
    ∃ h touched h' more, serve [createTwo] [] = .ok h touched ∧
      Checked.handle works (fun _ => 0) h (.resourceCreate2d 2 1 1 .b8g8r8a8) touched =
        .ok (.errUnspec, h') (touched ++ more) ∧
      h'.resource = h.resource := by
  obtain ⟨h, touched, status, h', more, hrun, hcall, herror, _⟩ :=
    requests_safe [createTwo] ⟨.resourceCreate2d 2 1 1 .b8g8r8a8, works, fun _ => 0⟩
  cases hrun
  cases hcall
  exact ⟨_, _, _, [], rfl, rfl, herror (by decide)⟩

/-- The display info is written, and then the flag of the event word, which is not in the driver's
data region. -/
theorem displayInfo_touches :
    ∃ h, Checked.handle works (fun _ => 0) System.start.handler (.getDisplayInfo 0) [] =
      .ok (.ok, h) [.info 0 displayInfoLen, .event] :=
  ⟨_, rfl⟩

end Lerux.Gpu.Driver
