import Mathlib.Data.List.Basic

/-!
# `iface.c`: the channel table

`_ifaceGetfreq` looks a channel number up in a table. The condition of its loop compares the number
of entries with 0 in place of the index, so that the loop ends by a match only: a channel that is
not in the table takes it out of the array (`ifaceGetfreqLoop_eq`).
-/

namespace SmartConfig

/-- `Ieee80211Channel_t`. -/
structure Ieee80211Channel where
  u16HwValue : UInt16
  u16CenterFreq : UInt16
  deriving DecidableEq

def CHAN2G (channel freq : UInt16) : Ieee80211Channel where
  u16HwValue := channel
  u16CenterFreq := freq

def gchannels : List Ieee80211Channel :=
  [CHAN2G 1 2412, CHAN2G 2 2417, CHAN2G 3 2422, CHAN2G 4 2427, CHAN2G 5 2432, CHAN2G 6 2437,
   CHAN2G 7 2442, CHAN2G 8 2447, CHAN2G 9 2452, CHAN2G 10 2457, CHAN2G 11 2462, CHAN2G 12 2467,
   CHAN2G 13 2472, CHAN2G 14 2484, CHAN2G 34 5170, CHAN2G 36 5180, CHAN2G 38 5190, CHAN2G 40 5200,
   CHAN2G 42 5210, CHAN2G 44 5220]

/-- How far the lookup is defined: it returns, or it reads an entry that the table does not have. -/
inductive FreqLookup where
  | returned (freq : UInt16)
  | beyond (i : Nat)
  deriving DecidableEq

/-- The loop from entry `i` on, over any table. -/
def ifaceGetfreqLoop (channels : List Ieee80211Channel) (clannel : UInt16) (i : Nat) : FreqLookup :=
  -- `0 < sizeof(gchannels) / sizeof(gchannels[0])`
  if 0 < channels.length then
    if h : i < channels.length then
      if channels[i].u16HwValue = clannel then .returned channels[i].u16CenterFreq
      else ifaceGetfreqLoop channels clannel (i + 1)
    else .beyond i
  else .returned 0
termination_by channels.length - i

/-- `_ifaceGetfreq`. -/
def ifaceGetfreq (clannel : UInt16) : FreqLookup := ifaceGetfreqLoop gchannels clannel 0

/-- What the loop makes of a table that is not empty: the first match, or the entry behind the
last. -/
theorem ifaceGetfreqLoop_eq {channels : List Ieee80211Channel} (hne : 0 < channels.length)
    (clannel : UInt16) (i : Nat) (hi : i ≤ channels.length) :
    ifaceGetfreqLoop channels clannel i =
      match (channels.drop i).find? (·.u16HwValue = clannel) with
      | some e => .returned e.u16CenterFreq
      | none => .beyond channels.length := by
  induction i using ifaceGetfreqLoop.induct channels clannel with
  | case1 i _ hlt hmatch =>
      rw [ifaceGetfreqLoop, if_pos hne, dif_pos hlt, if_pos hmatch, List.drop_eq_getElem_cons hlt,
        List.find?_cons_of_pos (by simpa using hmatch)]
  | case2 i _ hlt hmatch ih =>
      rw [ifaceGetfreqLoop, if_pos hne, dif_pos hlt, if_neg hmatch, ih hlt,
        List.drop_eq_getElem_cons hlt, List.find?_cons_of_neg (by simpa using hmatch)]
  | case3 i _ hge =>
      have heq : i = channels.length := by omega
      rw [ifaceGetfreqLoop, if_pos hne, dif_neg hge, heq, List.drop_length]
      rfl
  | case4 i hempty => exact absurd hne hempty

/-- A channel number stands in one entry only. -/
theorem find?_gchannels :
    ∀ e ∈ gchannels, gchannels.find? (·.u16HwValue = e.u16HwValue) = some e := by decide

theorem ifaceGetfreq_of_mem {e : Ieee80211Channel} (he : e ∈ gchannels) :
    ifaceGetfreq e.u16HwValue = .returned e.u16CenterFreq := by
  rw [ifaceGetfreq, ifaceGetfreqLoop_eq (by decide) _ 0 (Nat.zero_le _), List.drop_zero,
    find?_gchannels e he]

theorem ifaceGetfreq_of_not_mem {clannel : UInt16} (h : ∀ e ∈ gchannels, e.u16HwValue ≠ clannel) :
    ifaceGetfreq clannel = .beyond 20 := by
  have hfind : gchannels.find? (·.u16HwValue = clannel) = none :=
    List.find?_eq_none.mpr fun e he => by simpa using h e he
  rw [ifaceGetfreq, ifaceGetfreqLoop_eq (by decide) _ 0 (Nat.zero_le _), List.drop_zero, hfind]
  rfl

/-- **The lookup stays in the table, and is right, exactly for the channels of the table.** -/
theorem ifaceGetfreq_iff (clannel : UInt16) :
    (∃ freq, ifaceGetfreq clannel = .returned freq ∧
      (∀ e ∈ gchannels, e.u16HwValue = clannel → freq = e.u16CenterFreq) ∧
      ((∀ e ∈ gchannels, e.u16HwValue ≠ clannel) → freq = 0)) ↔
    ∃ e ∈ gchannels, e.u16HwValue = clannel := by
  constructor
  · rintro ⟨freq, hret, -, -⟩
    by_contra hnone
    have hbeyond := ifaceGetfreq_of_not_mem fun e he heq => hnone ⟨e, he, heq⟩
    rw [hbeyond] at hret
    cases hret
  · rintro ⟨e, he, rfl⟩
    refine ⟨_, ifaceGetfreq_of_mem he, fun e' he' heq => ?_, fun hno => absurd rfl (hno e he)⟩
    have hsame := ifaceGetfreq_of_mem he'
    rw [heq, ifaceGetfreq_of_mem he] at hsame
    exact FreqLookup.returned.inj hsame

/-- Channel 149 is not in the table. -/
theorem not_ifaceGetfreq_149 : ¬ ∃ freq, ifaceGetfreq 149 = .returned freq := by
  rintro ⟨freq, hret⟩
  rw [ifaceGetfreq_of_not_mem (by decide)] at hret
  cases hret

end SmartConfig
