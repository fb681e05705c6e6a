import OsLabs.Devices.Screen

/-!
# The video device

`fb_write` draws sprites, each a texture of 8 by 8 pixels, and two of them are the
glyph of a character. The board's device copies their pixels into its frame.
-/

namespace OsLabs.Devices.Video
open Function

/-! ### The board -/

structure FBPixel where
  b : Byte
  g : Byte
  r : Byte
  deriving DecidableEq, Repr

/-- `fb` is the frame of `W * H` pixels. -/
structure Vga where
  W : Nat
  H : Nat
  fb : Nat → FBPixel

/-- `*v = p` for a distance from `fb`; `none` is an access outside. -/
def Vga.store (vga : Vga) (v : Int) (p : FBPixel) : Option Vga :=
  if 0 ≤ v ∧ v < (vga.W * vga.H : Nat) then some { vga with fb := update vga.fb v.toNat p } else none

def toFBPixel (p : UInt32) : FBPixel := ⟨p.toUInt8, (p >>> 8).toUInt8, (p >>> 16).toUInt8⟩

/-- `_DEV_VIDEO_FBCTL_t`, but for `sync`. -/
structure FbCtl where
  x : Int
  y : Int
  pixels : List UInt32
  w : Nat
  h : Nat

def copyRow (pixels : List UInt32) (src : Nat) (v : Int) : Nat → Vga → Option Vga
  | 0, vga => some vga
  | i + 1, vga => do
    let vga ← copyRow pixels src v i vga
    let p ← pixels[src + i]?
    vga.store (v + i) (toFBPixel p)

def copyRows (ctl : FbCtl) (len : Nat) : Nat → Vga → Option Vga
  | 0, vga => some vga
  | j + 1, vga => do
    let vga ← copyRows ctl len j vga
    if ctl.y + j < vga.H then copyRow ctl.pixels (j * ctl.w) (ctl.x + (j + ctl.y) * vga.W) len vga
    else some vga

def videoWrite (ctl : FbCtl) (vga : Vga) : Option Vga :=
  let len := if ctl.x + ctl.w ≥ vga.W then vga.W - ctl.x else ctl.w
  copyRows ctl len.toNat ctl.h vga

/-! ### The textures -/

def textureW : Nat := 8

def textureH : Nat := 8

/-- The pixels that `texture_fill` puts one behind the other. -/
def textureFill (top : Bool) (bits : Nat → Byte) (fg bg : UInt32) : List UInt32 :=
  (List.range textureH).flatMap fun y => (List.range textureW).map fun x =>
    let bitmask := if top then bits (y + textureH) else bits y
    if bitmask.toNat.testBit (7 - x) then fg else bg

def fontLoad (font : Nat → Byte) (textures : Nat → List UInt32) : Nat → Nat → List UInt32
  | 0 => textures
  | ch + 1 =>
    let textures := update (fontLoad font textures ch) (ch * 2 + 1)
      (textureFill false (fun i => font (16 * ch + i)) 0xffffff 0x000000)
    update textures (ch * 2 + 2) (textureFill true (fun i => font (16 * ch + i)) 0xffffff 0x000000)

structure Sprite where
  texture : UInt16
  x : UInt16
  y : UInt16
  display : BitVec 4
  z : BitVec 12

/-- `fb_t`, of whose `info` only `current` changes. -/
structure Fb where
  width : Nat
  height : Nat
  current : UInt32
  textures : Nat → List UInt32

def fbInit (vga : Vga) (font : Nat → Byte) (textures : Nat → List UInt32) : Fb :=
  ⟨vga.W, vga.H, 0, fontLoad font textures 256⟩

def fbWriteSprites (fb : Fb) : List Sprite → Vga → Option Vga
  | [], vga => some vga
  | sp :: sprites, vga => do
    let vga ←
      if 0 < sp.texture ∧ sp.display.toNat = fb.current.toNat then
        videoWrite ⟨sp.x.toNat, sp.y.toNat, fb.textures sp.texture.toNat, textureW, textureH⟩ vga
      else some vga
    fbWriteSprites fb sprites vga

def fbWriteInfo (fb : Fb) (current : UInt32) : Fb :=
  if fb.current ≠ current then { fb with current := current } else fb

/-- The two sprites of `tty_render` for the character at a distance of `ch` from `buf`, in the row `y` and the column
`x`. -/
def ttySprites (tty : Screen) (display y x ch : Nat) : List Sprite :=
  let draw := if (ch : Int) = tty.cursor then 0xdb else (tty.buf ch).ch.toNat
  [⟨UInt16.ofNat (draw * 2 + 1), UInt16.ofNat (x * 8), UInt16.ofNat (y * 16), BitVec.ofNat 4 display, 0⟩,
    ⟨UInt16.ofNat (draw * 2 + 2), UInt16.ofNat (x * 8), UInt16.ofNat (y * 16 + 8), BitVec.ofNat 4 display, 0⟩]

/-- The round of `tty_render` for that character. -/
def ttyRenderRound (tty : Screen) (display y x ch : Nat) (fb : Fb) (vga : Vga) : Option Vga :=
  if tty.dirty ch ≠ 0 then fbWriteSprites fb (ttySprites tty display y x ch) vga else some vga

/-! ### A rectangle of the frame -/

def Vga.pixel (vga : Vga) (x y : Nat) : FBPixel := vga.fb (x + y * vga.W)

variable {vga : Vga} {ctl : FbCtl} {pixels : List UInt32} {fb : Fb} {x y px py n : Nat}

theorem store_inside {v : Nat} {p : FBPixel} (inside : v < vga.W * vga.H) :
    vga.store v p = some { vga with fb := update vga.fb v p } := by
  rw [Vga.store, if_pos ⟨Int.natCast_nonneg v, Int.ofNat_lt.mpr inside⟩, Int.toNat_natCast]

theorem copyRow_eq {src v : Nat} {row : Nat → UInt32} (inside : v + n ≤ vga.W * vga.H)
    (shown : ∀ i < n, pixels[src + i]? = some (row i)) :
    copyRow pixels src v n vga =
      some { vga with fb := fun k => if v ≤ k ∧ k < v + n then toFBPixel (row (k - v)) else vga.fb k } := by
  induction n with
  | zero =>
    have none : ∀ k, ¬(v ≤ k ∧ k < v + 0) := by omega
    simp only [copyRow, none, if_false]
  | succ n ih =>
    rw [copyRow, ih (by omega) fun i small => shown i (by omega)]
    simp only [Option.bind_eq_bind, Option.bind_some, shown n (by omega), ← Int.natCast_add]
    have next : v + n < vga.W * vga.H := by omega
    apply (store_inside (by exact next)).trans
    congr 2
    funext k
    by_cases last : k = v + n
    · rw [last, update_self, if_pos (by omega), Nat.add_sub_cancel_left]
    · have same : v ≤ k ∧ k < v + n ↔ v ≤ k ∧ k < v + (n + 1) := by omega
      simp only [update_of_ne last, same]

/-- Positions of a row of the frame. -/
theorem on_row {W r : Nat} (column : px < W) (fits : x + n ≤ W) :
    (x + r * W ≤ px + py * W ∧ px + py * W < x + r * W + n) ↔ py = r ∧ x ≤ px ∧ px < x + n := by
  rcases Nat.lt_trichotomy py r with above | same | below
  · have := Nat.mul_le_mul_right W above
    rw [Nat.succ_mul] at this
    omega
  · subst same
    omega
  · have := Nat.mul_le_mul_right W below
    rw [Nat.succ_mul] at this
    omega

def InRect (x y w n px py : Nat) : Prop := (x ≤ px ∧ px < x + w) ∧ y ≤ py ∧ py < y + n

instance (x y w n px py : Nat) : Decidable (InRect x y w n px py) := inferInstanceAs (Decidable (_ ∧ _))

theorem copyRows_pixel {picture : Nat → Nat → UInt32} (right : x + ctl.w ≤ vga.W) (bottom : y + ctl.h ≤ vga.H)
    (atX : ctl.x = x) (atY : ctl.y = y)
    (shown : ∀ j < ctl.h, ∀ i < ctl.w, ctl.pixels[j * ctl.w + i]? = some (picture j i)) (rows : n ≤ ctl.h) :
    ∃ frame, copyRows ctl ctl.w n vga = some { vga with fb := frame } ∧ ∀ px < vga.W, ∀ py,
      frame (px + py * vga.W) =
        if InRect x y ctl.w n px py then toFBPixel (picture (py - y) (px - x)) else vga.pixel px py := by
  induction n with
  | zero =>
    refine ⟨vga.fb, rfl, fun px _ py => ?_⟩
    rw [if_neg (by unfold InRect; omega)]
    rfl
  | succ n ih =>
    obtain ⟨frame, done, drawn⟩ := ih (by omega)
    have start : ctl.x + ((n : Int) + ctl.y) * vga.W = (x + (n + y) * vga.W : Nat) := by
      rw [atX, atY]
      push_cast
      rfl
    have inside : x + (n + y) * vga.W + ctl.w ≤ vga.W * vga.H := by
      have := Nat.mul_le_mul_left vga.W (show n + y + 1 ≤ vga.H by omega)
      rw [Nat.mul_succ, Nat.mul_comm] at this
      omega
    rw [copyRows, done]
    simp only [Option.bind_eq_bind, Option.bind_some, if_pos (show ctl.y + (n : Int) < vga.H by omega), start]
    refine ⟨_, copyRow_eq inside (shown n (by omega)), fun px column py => ?_⟩
    simp only [on_row column right, drawn px column py]
    by_cases here : py = n + y
    · subst here
      rw [if_neg (show ¬InRect x y ctl.w n px (n + y) by unfold InRect; omega)]
      by_cases within : x ≤ px ∧ px < x + ctl.w
      · have offset : px + (n + y) * vga.W - (x + (n + y) * vga.W) = px - x := by omega
        rw [if_pos ⟨rfl, within⟩, if_pos (by unfold InRect; omega), offset, Nat.add_sub_cancel]
      · rw [if_neg fun both => within both.2, if_neg fun both => within both.1]
    · rw [if_neg fun both => here both.1]
      have same : InRect x y ctl.w n px py ↔ InRect x y ctl.w (n + 1) px py := by
        unfold InRect
        omega
      simp only [same]

/-- A rectangle inside the frame is drawn, and nothing else changes. -/
theorem videoWrite_pixel {picture : Nat → Nat → UInt32} (right : x + ctl.w ≤ vga.W) (bottom : y + ctl.h ≤ vga.H)
    (atX : ctl.x = x) (atY : ctl.y = y)
    (shown : ∀ j < ctl.h, ∀ i < ctl.w, ctl.pixels[j * ctl.w + i]? = some (picture j i)) :
    ∃ vga', videoWrite ctl vga = some vga' ∧ vga'.W = vga.W ∧ vga'.H = vga.H ∧ ∀ px < vga.W, ∀ py,
      vga'.pixel px py =
        if InRect x y ctl.w ctl.h px py then toFBPixel (picture (py - y) (px - x)) else vga.pixel px py := by
  have len : (if ctl.x + ctl.w ≥ vga.W then (vga.W : Int) - ctl.x else ctl.w).toNat = ctl.w := by
    split_ifs <;> omega
  obtain ⟨frame, done, drawn⟩ := copyRows_pixel right bottom atX atY shown (Nat.le_refl _)
  refine ⟨{ vga with fb := frame }, ?_, rfl, rfl, drawn⟩
  simp only [videoWrite, len, done]

/-! ### The glyphs -/

theorem length_rows {f : Nat → Nat → UInt32} {w : Nat} :
    ((List.range n).flatMap fun j => (List.range w).map (f j)).length = n * w := by
  induction n with
  | zero => simp
  | succ n ih =>
    rw [List.range_succ, List.flatMap_append, List.length_append, ih]
    simp [Nat.succ_mul]

/-- Rows that are put one behind the other. -/
theorem rows_getElem? {f : Nat → Nat → UInt32} {w j i : Nat} (row : j < n) (column : i < w) :
    ((List.range n).flatMap fun j => (List.range w).map (f j))[j * w + i]? = some (f j i) := by
  induction n with
  | zero => omega
  | succ n ih =>
    rw [List.range_succ, List.flatMap_append]
    rcases Nat.lt_succ_iff_lt_or_eq.mp row with before | last
    · have := Nat.mul_le_mul_right w before
      rw [Nat.succ_mul] at this
      rw [List.getElem?_append_left (by rw [length_rows]; omega), ih before]
    · subst last
      rw [List.getElem?_append_right (by rw [length_rows]; omega), length_rows, Nat.add_sub_cancel_left]
      simp [column]

/-- The pixel of a character in the column `i` and the row `j` of its glyph. -/
def glyph (font : Nat → Byte) (ch : Byte) (i j : Nat) : FBPixel :=
  if (font (16 * ch.toNat + j)).toNat.testBit (7 - i) then ⟨255, 255, 255⟩ else ⟨0, 0, 0⟩

theorem toFBPixel_ite {p : Prop} [Decidable p] :
    toFBPixel (if p then 0xffffff else 0x000000) = if p then ⟨255, 255, 255⟩ else ⟨0, 0, 0⟩ := by
  split <;> rfl

theorem textureFill_getElem? {top : Bool} {bits : Nat → Byte} {fg bg : UInt32} {i j : Nat} (row : j < textureH)
    (column : i < textureW) : (textureFill top bits fg bg)[j * textureW + i]? =
      some (if (if top then bits (j + textureH) else bits j).toNat.testBit (7 - i) then fg else bg) :=
  rows_getElem? row column

def Loaded (font : Nat → Byte) (fb : Fb) : Prop := ∀ ch < 256,
  fb.textures (ch * 2 + 1) = textureFill false (fun i => font (16 * ch + i)) 0xffffff 0x000000 ∧
  fb.textures (ch * 2 + 2) = textureFill true (fun i => font (16 * ch + i)) 0xffffff 0x000000

theorem fontLoad_textures {font : Nat → Byte} {textures : Nat → List UInt32} {ch : Nat} (before : ch < n) :
    fontLoad font textures n (ch * 2 + 1) = textureFill false (fun i => font (16 * ch + i)) 0xffffff 0x000000 ∧
    fontLoad font textures n (ch * 2 + 2) = textureFill true (fun i => font (16 * ch + i)) 0xffffff 0x000000 := by
  induction n with
  | zero => omega
  | succ n ih =>
    simp only [fontLoad]
    rcases Nat.lt_succ_iff_lt_or_eq.mp before with earlier | last
    · obtain ⟨upper, lower⟩ := ih earlier
      constructor
      · rw [update_of_ne (by omega), update_of_ne (by omega), upper]
      · rw [update_of_ne (by omega), update_of_ne (by omega), lower]
    · subst last
      exact ⟨by rw [update_of_ne (by omega), update_self], update_self ..⟩

theorem fbInit_loaded {font : Nat → Byte} {textures : Nat → List UInt32} : Loaded font (fbInit vga font textures) :=
  fun _ small => fontLoad_textures small

theorem Loaded.fbWriteInfo {font : Nat → Byte} {current : UInt32} (loaded : Loaded font fb) :
    Loaded font (fbWriteInfo fb current) := by
  unfold Video.fbWriteInfo
  split <;> exact loaded

theorem fbWriteInfo_current {current : UInt32} : (fbWriteInfo fb current).current = current := by
  unfold fbWriteInfo
  split
  · rfl
  · rename_i same
    exact not_not.mp same

/-! ### The cells of a tty -/

/-- What `tty_render` draws for a cell: its character, or the cursor. -/
def shown (tty : Screen) (k : Nat) : Byte := if (k : Int) = tty.cursor then 0xdb else (tty.buf k).ch

variable {font : Nat → Byte} {tty : Screen} {display k : Nat}

/-- A half of a glyph, which is one sprite. -/
theorem sprite_pixel {top : Bool} {ch : Byte} {half : Nat} (right : x + 8 ≤ vga.W) (bottom : y + 8 ≤ vga.H)
    (texture : fb.textures half = textureFill top (fun i => font (16 * ch.toNat + i)) 0xffffff 0x000000) :
    ∃ vga', videoWrite ⟨x, y, fb.textures half, textureW, textureH⟩ vga = some vga' ∧ vga'.W = vga.W ∧ vga'.H = vga.H ∧
      ∀ px < vga.W, ∀ py, vga'.pixel px py =
        if InRect x y 8 8 px py then glyph font ch (px - x)
          (if top then py - y + 8 else py - y) else vga.pixel px py := by
  have shown : ∀ j < textureH, ∀ i < textureW, (fb.textures half)[j * textureW + i]? =
      some (if (font (16 * ch.toNat + if top then j + textureH else j)).toNat.testBit
        (7 - i) then 0xffffff else 0) := by
    intro j row i column
    rw [texture, textureFill_getElem? row column]
    cases top <;> rfl
  obtain ⟨vga', done, sameW, sameH, drawn⟩ :=
    @videoWrite_pixel vga ⟨x, y, fb.textures half, textureW, textureH⟩ x y _ right bottom rfl rfl shown
  refine ⟨vga', done, sameW, sameH, fun px column py => ?_⟩
  rw [drawn px column py]
  simp only [toFBPixel_ite]
  cases top <;> rfl

theorem shown_draw : (if (k : Int) = tty.cursor then 0xdb else (tty.buf k).ch.toNat) = (shown tty k).toNat := by
  unfold shown
  split <;> rfl

theorem toNat_word (small : n < 2 ^ 16) : (UInt16.ofNat n).toNat = n := UInt16.toNat_ofNat_of_lt' small

/-- The tty in front draws a cell, and nothing else changes. -/
theorem ttySprites_pixel (loaded : Loaded font fb) (front : fb.current.toNat = display) (small : display < 16)
    (right : x * 8 + 8 ≤ vga.W) (bottom : y * 16 + 16 ≤ vga.H) (width : vga.W < 2 ^ 16) (height : vga.H < 2 ^ 16) :
    ∃ vga', fbWriteSprites fb (ttySprites tty display y x k) vga = some vga' ∧ vga'.W = vga.W ∧ vga'.H = vga.H ∧
      ∀ px < vga.W, ∀ py, vga'.pixel px py =
        if InRect (x * 8) (y * 16) 8 16 px py then glyph font (shown tty k) (px - x * 8) (py - y * 16)
        else vga.pixel px py := by
  have byte := (shown tty k).toNat_lt
  obtain ⟨upper, lower⟩ := loaded (shown tty k).toNat byte
  obtain ⟨vga₁, done₁, sameW₁, sameH₁, drawn₁⟩ :=
    @sprite_pixel vga fb (x * 8) (y * 16) font false (shown tty k) _ right (by omega) upper
  obtain ⟨vga₂, done₂, sameW₂, sameH₂, drawn₂⟩ :=
    @sprite_pixel vga₁ fb (x * 8) (y * 16 + 8) font true (shown tty k) _ (by omega) (by omega) lower
  have first : (UInt16.ofNat ((shown tty k).toNat * 2 + 1)).toNat = (shown tty k).toNat * 2 + 1 :=
    toNat_word (by omega)
  have second : (UInt16.ofNat ((shown tty k).toNat * 2 + 2)).toNat = (shown tty k).toNat * 2 + 2 :=
    toNat_word (by omega)
  have atX : (UInt16.ofNat (x * 8)).toNat = x * 8 := toNat_word (by omega)
  have atY : (UInt16.ofNat (y * 16)).toNat = y * 16 := toNat_word (by omega)
  have below : (UInt16.ofNat (y * 16 + 8)).toNat = y * 16 + 8 := toNat_word (by omega)
  have same : (BitVec.ofNat 4 display).toNat = fb.current.toNat := by
    rw [BitVec.toNat_ofNat, Nat.mod_eq_of_lt small, front]
  have some_first : 0 < UInt16.ofNat ((shown tty k).toNat * 2 + 1) := by
    rw [UInt16.lt_iff_toNat_lt, first]
    exact Nat.succ_pos _
  have some_second : 0 < UInt16.ofNat ((shown tty k).toNat * 2 + 2) := by
    rw [UInt16.lt_iff_toNat_lt, second]
    exact Nat.succ_pos _
  refine ⟨vga₂, ?_, sameW₂.trans sameW₁, sameH₂.trans sameH₁, fun px column py => ?_⟩
  · simp only [ttySprites, shown_draw, fbWriteSprites, if_pos (And.intro some_first same),
      if_pos (And.intro some_second same), first, second, atX, atY, below]
    rw [done₁]
    exact (congrArg (Option.bind · _) done₂).trans rfl
  · rw [drawn₂ px (by omega) py, drawn₁ px column py]
    simp only [Bool.false_eq_true, if_false, if_true]
    by_cases within : x * 8 ≤ px ∧ px < x * 8 + 8
    · by_cases lowerHalf : y * 16 + 8 ≤ py ∧ py < y * 16 + 8 + 8
      · have rows : y * 16 ≤ py ∧ py < y * 16 + 16 := by omega
        rw [if_pos (show InRect _ _ 8 8 px py from ⟨within, lowerHalf⟩),
          if_pos (show InRect _ _ 8 16 px py from ⟨within, rows⟩)]
        congr 1
        omega
      · have same : InRect (x * 8) (y * 16) 8 8 px py ↔ InRect (x * 8) (y * 16) 8 16 px py := by
          unfold InRect
          omega
        rw [if_neg (show ¬InRect _ _ 8 8 px py from fun both => lowerHalf both.2)]
        simp only [same]
    · have outside {top n : Nat} : ¬InRect (x * 8) top 8 n px py := fun both => within both.1
      rw [if_neg outside, if_neg outside, if_neg outside]

/-- A tty behind draws nothing. -/
theorem ttySprites_behind (behind : fb.current.toNat ≠ display) (small : display < 16) :
    fbWriteSprites fb (ttySprites tty display y x k) vga = some vga := by
  have other : ¬(BitVec.ofNat 4 display).toNat = fb.current.toNat := by
    rw [BitVec.toNat_ofNat, Nat.mod_eq_of_lt small]
    exact fun same => behind same.symm
  simp only [ttySprites, fbWriteSprites, other, and_false, if_false, Option.bind_eq_bind, Option.bind_some]

end OsLabs.Devices.Video
