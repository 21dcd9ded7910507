import KeyReserve.Routing.Protocols
import Mathlib.Data.List.Nodup
import Mathlib.Data.List.Range

/-!
# Streams of their own

Each protocol of a run draws from the stream of an index of its own, and that is the stream of a
generator of its own. The value that seeds it is the index, spread over a word by an odd factor and
mixed with the seed of the run. An odd factor has an inverse modulo the size of a word, so that the
index can be told from the value, and no two generators of a run are seeded alike.

## Main definitions

* `RandomStream.indexOf`: the index of the stream whose generator is seeded with a value;
* `Protocols.roles`, `Protocols.stream?`: the installed protocols in the order of the roles, and the
  stream of each;
* `Protocols.DrawsFrom`: which generators the installed protocols draw from.

## Main results

* `RandomStream.indexOf_mix`: the index of a stream is told by the value that seeds its generator;
* `Protocols.assignStreams_apart`: protocols draw from consecutive streams, no two of which are
  seeded alike.
-/

namespace KeyReserve

namespace RandomStream

/-- The index of the stream whose generator is seeded with a value, in the run of a seed. The factor
is the inverse of the one that spreads indices. -/
def indexOf (seed value : UInt64) : UInt64 := (seed ^^^ value) * 0xF1DE83E19937733D - 1

theorem indexOf_mix (seed stream : UInt64) : indexOf seed (mix seed stream) = stream := by
  have hinverse : (0x9E3779B97F4A7C15 : UInt64) * 0xF1DE83E19937733D = 1 := by decide
  calc indexOf seed (mix seed stream)
    _ = (stream + 1) * 0x9E3779B97F4A7C15 * 0xF1DE83E19937733D - 1 := by
      rw [indexOf, mix, ← UInt64.xor_assoc, UInt64.xor_self, UInt64.zero_xor]
    _ = stream + 1 - 1 := by rw [UInt64.mul_assoc, hinverse, UInt64.mul_one]
    _ = stream := UInt64.add_sub_cancel stream 1

theorem mix_injective (seed : UInt64) : Function.Injective (mix seed) :=
  Function.LeftInverse.injective (indexOf_mix seed)

end RandomStream

/-- The roles, in the order in which their protocols are given streams. -/
def Role.all : List Role := [.proactive, .reactive]

namespace Protocols

/-- The roles for which a protocol is installed. -/
def roles (p : Protocols) : List Role := Role.all.filter p.installed

/-- The random stream of the protocol of a role. -/
def stream? (p : Protocols) : Role → Option RandomStream
  | .proactive => p.proactive.map (·.stream)
  | .reactive => p.reactive.map (·.stream)

/-- The installed protocols draw from the generators that are seeded with the values of some indices
of a run. -/
structure DrawsFrom (p : Protocols) (seed : UInt64) (indices : List UInt64) : Prop where
  /-- Each from one, in the order of the roles. -/
  streams : p.roles.map p.stream? =
    (indices.map (RandomStream.mix seed)).map fun value => some (.ofSeed value)
  /-- No two of the generators are seeded alike. -/
  apart : (indices.map (RandomStream.mix seed)).Nodup

/-- Indices that follow each other are distinct, and so are the values that seed their
generators. -/
theorem nodup_mix_of_range' {indices : List UInt64} {first count : Nat}
    (h : indices.map UInt64.toNat = List.range' first count) (seed : UInt64) :
    (indices.map (RandomStream.mix seed)).Nodup := by
  have hdistinct : (indices.map UInt64.toNat).Nodup := h ▸ List.nodup_range'
  exact (List.Nodup.of_map _ hdistinct).map (RandomStream.mix_injective seed)

theorem toNat_succ {index : UInt64} (h : index.toNat + 1 < UInt64.size) :
    (index + 1).toNat = index.toNat + 1 := by
  rw [UInt64.toNat_add]
  exact Nat.mod_eq_of_lt h

theorem roles_assignStreams (p : Protocols) (seed first : UInt64) :
    (p.assignStreams seed first).2.roles = p.roles := by
  obtain ⟨_ | _, _ | _⟩ := p <;> rfl

/-- Each installed protocol takes up one index. -/
theorem exists_indices (p : Protocols) (seed first : UInt64)
    (h : first.toNat + p.roles.length < UInt64.size) :
    (p.assignStreams seed first).1.toNat = first.toNat + p.roles.length ∧
      ∃ indices : List UInt64, indices.map UInt64.toNat = List.range' first.toNat p.roles.length ∧
        p.roles.map (p.assignStreams seed first).2.stream? =
          (indices.map (RandomStream.mix seed)).map fun value => some (.ofSeed value) := by
  obtain ⟨_ | t, _ | u⟩ := p
  · exact ⟨rfl, [], rfl, rfl⟩
  · exact ⟨toNat_succ h, [first], rfl, rfl⟩
  · exact ⟨toNat_succ h, [first], rfl, rfl⟩
  · have hboth : first.toNat + 2 < UInt64.size := h
    have hnext : (first + 1).toNat = first.toNat + 1 := toNat_succ (Nat.lt_of_succ_lt hboth)
    have hlast : (first + 1 + 1).toNat = first.toNat + 2 := by
      rw [toNat_succ (hnext ▸ hboth), hnext]
    exact ⟨hlast, [first, first + 1], congrArg (fun n => [first.toNat, n]) hnext, rfl⟩

/-- The stream of an index is that of the generator which the value of the index seeds, and no two
indices of a run have the same value, whatever the seed of the run. The installed protocols draw
from streams of that run with consecutive indices, from the first one on in the order of the roles,
and the index after the last of them is named as the next unused one. -/
theorem assignStreams_apart :
    (∀ seed index, RandomStream.ofRun seed index = .ofSeed (RandomStream.mix seed index)) ∧
    (∀ seed, Function.Injective (RandomStream.mix seed)) ∧
    ∀ (p : Protocols) (seed first : UInt64), first.toNat + p.roles.length < UInt64.size →
      (p.assignStreams seed first).2.roles = p.roles ∧
      (p.assignStreams seed first).1.toNat = first.toNat + p.roles.length ∧
      ∃ indices : List UInt64, indices.map UInt64.toNat = List.range' first.toNat p.roles.length ∧
        (p.assignStreams seed first).2.DrawsFrom seed indices := by
  refine ⟨fun _ _ => rfl, RandomStream.mix_injective, fun p seed first h => ?_⟩
  have hroles := p.roles_assignStreams seed first
  obtain ⟨hunused, indices, hrange, hstreams⟩ := p.exists_indices seed first h
  exact ⟨hroles, hunused, indices, hrange, hroles.symm ▸ hstreams, nodup_mix_of_range' hrange seed⟩

/-- Both protocols are installed, and are given the last two streams but one. They are the streams
of two generators, and those are not the same. -/
theorem assignStreams_apart_both :
    let p : Protocols := ⟨some (.ofNode ⟨1⟩ 10), some (.ofNode ⟨1⟩ 100 20)⟩
    let q := (p.assignStreams 7 18446744073709551613).2
    p.roles = [.proactive, .reactive] ∧
      (p.assignStreams 7 18446744073709551613).1 = 18446744073709551615 ∧
      (∃ indices : List UInt64,
        indices.map UInt64.toNat = [18446744073709551613, 18446744073709551614] ∧
        q.DrawsFrom 7 indices) ∧
      q.stream? .proactive = some (.ofSeed (RandomStream.mix 7 18446744073709551613)) ∧
      q.stream? .reactive = some (.ofSeed (RandomStream.mix 7 18446744073709551614)) ∧
      q.stream? .proactive ≠ q.stream? .reactive := by
  obtain ⟨hseeded, -, hassigned⟩ := assignStreams_apart
  obtain ⟨-, hunused, hindices⟩ := hassigned
    ⟨some (.ofNode ⟨1⟩ 10), some (.ofNode ⟨1⟩ 100 20)⟩ 7 18446744073709551613 (by decide)
  exact ⟨rfl, UInt64.toNat_inj.1 hunused, hindices, congrArg some (hseeded _ _),
    congrArg some (hseeded _ _), by decide +kernel⟩

end Protocols

end KeyReserve
