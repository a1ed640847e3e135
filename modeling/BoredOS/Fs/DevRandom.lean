import Mathlib

/-!
# The Random Device

`dev_random_read` copies each block of the stream cipher to the reader and then takes the first half
of the same block as the next key. A reader who was given that half of the last block has the key
from which the next bytes are made, up to the time stamp and the hardware value that are mixed in.
-/

namespace BoredOS.Fs.DevRandom

open Function List Nat

/-- `uint32_t [16]`: the state of the generator or a block. -/
abbrev Words := Fin 16 → BitVec 32

/-- `rng_state` and `blocks_since_hw_reseed`. -/
structure Rng where
  state : Words
  blocksSinceHwReseed : BitVec 32

/-- The words that `rng_init_locked` sets for good. -/
def Initialised (st : Words) : Prop :=
  st 0 = 0x61707865 ∧ st 1 = 0x3320646e ∧ st 2 = 0x79622d32 ∧ st 3 = 0x6b206574

/-- What the processor answers at each block of a read: the time stamp, and what
`get_rdseed64(&hw) || get_rdrand64(&hw)` gives if it succeeds. -/
structure Hardware where
  readTsc : ℕ → BitVec 64
  getHw : ℕ → Option (BitVec 64)

/-- The counter goes up, with a carry. -/
def countUp (st : Words) : Words :=
  let st := update st 12 (st 12 + 1)
  if st 12 = 0 then update st 13 (st 13 + 1) else st

/-- `memcpy(&rng_state[4], block, 32)`. -/
def setKey (st block : Words) : Words := fun i => if 4 ≤ i ∧ i < 12 then block (i - 4) else st i

/-- A value is mixed into the first two words of the key. -/
def mixKey (st : Words) (x : BitVec 64) : Words :=
  update (update st 4 (st 4 ^^^ x.setWidth 32)) 5 (st 5 ^^^ (x >>> 32).setWidth 32)

def byteAt (block : Words) (k : ℕ) : BitVec 8 :=
  (block (.ofNat 16 (k / 4)) >>> (8 * (k % 4))).setWidth 8

/-- `memcpy(out, block, take)`. -/
def copyOut (block : Words) (take : ℕ) : List (BitVec 8) := (List.range take).map (byteAt block)

/-- What is mixed into the key after a block. -/
def mixedIn (hw : Hardware) (i : ℕ) (s : Rng) : BitVec 64 × Option (BitVec 64) :=
  (hw.readTsc i, if s.blocksSinceHwReseed + 1 ≥ 4096 then hw.getHw i else none)

def nextRng (s : Rng) (block : Words) (mix : BitVec 64 × Option (BitVec 64)) : Rng where
  state :=
    let st := mixKey (setKey (countUp s.state) block) mix.1
    mix.2.elim st (mixKey st)
  blocksSinceHwReseed :=
    if s.blocksSinceHwReseed + 1 ≥ 4096 then 0 else s.blocksSinceHwReseed + 1

/-- The loop of `dev_random_read` with any block function in the place of `chacha20_block`: the
generator, the bytes for the reader and what was mixed in. -/
def readLoop (f : Words → Words) (hw : Hardware) (i : ℕ) (s : Rng) (remaining : ℕ) :
    Rng × List (BitVec 8) × List (BitVec 64 × Option (BitVec 64)) :=
  if remaining = 0 then (s, [], [])
  else
    let block := f (countUp s.state)
    let take := if remaining < 64 then remaining else 64
    let r := readLoop f hw (i + 1) (nextRng s block (mixedIn hw i s)) (remaining - take)
    (r.1, copyOut block take ++ r.2.1, mixedIn hw i s :: r.2.2)
termination_by remaining
decreasing_by split <;> omega

/-- The words of the key. -/
def keyOf (st : Words) : Words := fun i => if 4 ≤ i ∧ i < 12 then st i else 0

/-- The counter and the nonce. -/
def publicOf (st : Words) : Words := fun i => if 12 ≤ i then st i else 0

/-- A function of what the reader of `n` bytes knows gives the key after the read. -/
def KeyKnown (n : ℕ) : Prop :=
  ∃ g : List (BitVec 8) × List (BitVec 64 × Option (BitVec 64)) → Words → Words, ∀ f hw s,
    Initialised s.state →
      keyOf (readLoop f hw 0 s n).1.state = g (readLoop f hw 0 s n).2 (publicOf s.state)

section

variable {f f' : Words → Words} {hw hw' : Hardware} {i i' n : ℕ} {s s' : Rng} {b b' : Words}

theorem readLoop_last (hpos : 0 < n) (hle : n ≤ 64) : readLoop f hw i s n =
    (nextRng s (f (countUp s.state)) (mixedIn hw i s), copyOut (f (countUp s.state)) n,
      [mixedIn hw i s]) := by
  have htake : (if n < 64 then n else 64) = n := by split <;> omega
  rw [readLoop, if_neg (by omega)]
  dsimp only
  rw [htake, Nat.sub_self, readLoop]
  simp

theorem readLoop_more (hlt : 64 < n) : readLoop f hw i s n =
    let r := readLoop f hw (i + 1) (nextRng s (f (countUp s.state)) (mixedIn hw i s)) (n - 64)
    (r.1, copyOut (f (countUp s.state)) 64 ++ r.2.1, mixedIn hw i s :: r.2.2) := by
  rw [readLoop, if_neg (by omega)]
  dsimp only
  rw [if_neg (by omega)]

/-- The new key, whatever is mixed in. -/
theorem keyOf_nextRng (h : ∀ j : Fin 16, j < 8 → b j = b' j)
    (mix : BitVec 64 × Option (BitVec 64)) :
    keyOf (nextRng s b mix).state = keyOf (nextRng s' b' mix).state := by
  have hmix : ∀ {st st' : Words} (x : BitVec 64), keyOf st = keyOf st' →
      keyOf (mixKey st x) = keyOf (mixKey st' x) := by
    intro st st' x hkey
    have h₄ : st 4 = st' 4 := congrFun hkey 4
    have h₅ : st 5 = st' 5 := congrFun hkey 5
    funext j
    have hj := congrFun hkey j
    unfold keyOf mixKey at *
    simp only [update_apply, h₄, h₅]
    split_ifs at hj ⊢ <;> trivial
  have hset : keyOf (setKey (countUp s.state) b) = keyOf (setKey (countUp s'.state) b') := by
    funext j
    unfold keyOf setKey
    split
    next hj => exact h _ (by omega)
    next => rfl
  obtain ⟨x, hw⟩ := mix
  cases hw with
  | none => exact hmix x hset
  | some y => exact hmix y (hmix x hset)

/-- Half of a block tells its words. -/
theorem eq_of_copyOut (hn : 32 ≤ n) (h : copyOut b n = copyOut b' n) (j : Fin 16) (hj : j < 8) :
    b j = b' j := by
  have hbyte : ∀ k < 32, byteAt b k = byteAt b' k := fun k hk =>
    map_inj_left.1 h k (mem_range.2 (by omega))
  apply BitVec.eq_of_getLsbD_eq
  intro l hl
  have hb := congrArg (·.getLsbD (l % 8)) (hbyte (4 * j + l / 8) (by omega))
  have hdiv : (4 * j.val + l / 8) / 4 = j.val := by omega
  have hmod : (4 * j.val + l / 8) % 4 = l / 8 := by omega
  have hbit : 8 * (l / 8) + l % 8 = l := by omega
  simpa [byteAt, hdiv, hmod, hbit, mod_lt] using hb

/-- Two reads that look the same and end with half a block or more leave the same key. -/
theorem keyOf_readLoop (hn : 31 ≤ (n - 1) % 64) :
    (readLoop f hw i s n).2 = (readLoop f' hw' i' s' n).2 →
      keyOf (readLoop f hw i s n).1.state = keyOf (readLoop f' hw' i' s' n).1.state := by
  induction n using Nat.strong_induction_on generalizing i i' s s' with
  | _ n ih =>
    rcases lt_or_ge 64 n with hmore | hlast
    · rw [readLoop_more hmore, readLoop_more hmore]
      intro h
      obtain ⟨hbytes, hlog⟩ := Prod.mk.inj h
      have hlen : ∀ b b' : Words, (copyOut b 64).length = (copyOut b' 64).length := by
        simp [copyOut]
      refine ih (n - 64) (by omega) (by omega) (Prod.ext ?_ (cons.inj hlog).2)
      exact (append_inj hbytes (hlen _ _)).2
    · rw [readLoop_last (by omega) hlast, readLoop_last (by omega) hlast]
      intro h
      obtain ⟨hbytes, hlog⟩ := Prod.mk.inj h
      dsimp only
      rw [(cons.inj hlog).1]
      exact keyOf_nextRng (eq_of_copyOut (by omega) hbytes) _

/-- A reader who is given half of the last block knows the key. -/
theorem keyKnown_of_half (hn : 31 ≤ (n - 1) % 64) : KeyKnown n := by
  let key (x : (Words → Words) × Hardware × Rng) := keyOf (readLoop x.1 x.2.1 0 x.2.2 n).1.state
  let view (x : (Words → Words) × Hardware × Rng) := (readLoop x.1 x.2.1 0 x.2.2 n).2
  have hkey : key.FactorsThrough view := fun _ _ h => keyOf_readLoop hn h
  obtain ⟨g, hg⟩ := (factorsThrough_iff key).1 hkey
  exact ⟨fun v _ => g v, fun f hw s _ => congrFun hg (f, hw, s)⟩

/-- A block function that gives a word only under one key. -/
def veiled (c : BitVec 32) (st : Words) : Words := fun j => if st 4 = 1 ∧ j = 7 then c else 0

/-- Time stamps that lead to that key for block `last`. -/
def leading (last : ℕ) : Hardware := ⟨fun k => if k + 1 = last then 1 else 0, fun _ => none⟩

theorem countUp_four (st : Words) : countUp st 4 = st 4 := by
  unfold countUp
  split <;> rfl

theorem byteAt_veiled (st : Words) {k : ℕ} (hk : k < 31) :
    byteAt (veiled 0x1000000 st) k = byteAt (veiled 0 st) k := by
  unfold veiled
  by_cases h : st 4 = 1
  · simp only [h, true_and]
    revert k
    decide
  · simp only [h, false_and, if_false]

/-- The bytes do not tell the word that the block function gives. -/
theorem readLoop_veiled {last : ℕ} (hpos : 0 < n) (hn : (n - 1) % 64 < 31)
    (hlast : i + (n - 1) / 64 = last) (hst : s.state 4 = if i = last then 1 else 0) :
    (∀ c, (readLoop (veiled c) (leading last) i s n).1.state 11 = c) ∧
      (readLoop (veiled 0x1000000) (leading last) i s n).2 =
        (readLoop (veiled 0) (leading last) i s n).2 := by
  have hmix : ∀ i s, mixedIn (leading last) i s = (if i + 1 = last then 1 else 0, none) := by
    simp [mixedIn, leading]
  induction n using Nat.strong_induction_on generalizing i s with
  | _ n ih =>
    rcases lt_or_ge 64 n with hmore | hless
    · have hblock : ∀ c, veiled c (countUp s.state) = fun _ => 0 := by
        intro c
        have hi : i ≠ last := by omega
        funext j
        simp [veiled, countUp_four, hst, hi]
      have hnext : (nextRng s (fun _ => 0) (mixedIn (leading last) i s)).state 4 =
          if i + 1 = last then 1 else 0 := by
        rw [hmix]
        change 0 ^^^ BitVec.setWidth 32 _ = _
        split <;> decide
      obtain ⟨hkey, hview⟩ := ih (n - 64) (by omega) (by omega) (by omega)
        (i := i + 1) (by omega) hnext
      simp only [readLoop_more hmore, hblock]
      exact ⟨hkey, by rw [hview]⟩
    · have hbytes : copyOut (veiled 0x1000000 (countUp s.state)) n =
          copyOut (veiled 0 (countUp s.state)) n :=
        map_congr_left fun k hk =>
          byteAt_veiled _ (lt_of_lt_of_le (mem_range.1 hk) (by omega))
      have hone : countUp s.state 4 = 1 := by
        rw [countUp_four, hst, if_pos (by omega)]
      simp only [readLoop_last hpos hless, hbytes, and_true]
      intro c
      rw [hmix]
      change veiled c (countUp s.state) 7 = c
      simp [veiled, hone]

theorem not_keyKnown (hpos : 0 < n) (hn : (n - 1) % 64 < 31) : ¬ KeyKnown n := by
  rintro ⟨g, hg⟩
  let s : Rng := ⟨fun j => [0x61707865, 0x3320646e, 0x79622d32, 0x6b206574,
    if 0 = (n - 1) / 64 then 1 else 0].getD j 0, 0⟩
  obtain ⟨hkey, hview⟩ := readLoop_veiled hpos hn (Nat.zero_add _) (s := s) rfl
  have hs : Initialised s.state := ⟨rfl, rfl, rfl, rfl⟩
  have h := (hg (veiled 0x1000000) (leading _) s hs).trans
    ((congrArg (g · _) hview).trans (hg (veiled 0) (leading _) s hs).symm)
  have h₁₁ : (0x1000000 : BitVec 32) = 0 :=
    (hkey _).symm.trans ((congrFun h 11).trans (hkey _))
  exact absurd h₁₁ (by decide)

end

/-- The reader does not know the next key exactly if it gets less than half of the last block. -/
theorem key_unknown_iff (n : ℕ) (hpos : 1 ≤ n) : ¬ KeyKnown n ↔ (n - 1) % 64 < 31 :=
  ⟨fun h => Nat.lt_of_not_le fun hn => h (keyKnown_of_half hn), not_keyKnown hpos⟩

theorem key_unknown_sixteen : ¬ KeyKnown 16 := (key_unknown_iff 16 (by decide)).2 (by decide)

/-- A read of 32 bytes gives the next key away. -/
theorem key_known_thirtytwo : KeyKnown 32 := keyKnown_of_half (by decide)

end BoredOS.Fs.DevRandom
