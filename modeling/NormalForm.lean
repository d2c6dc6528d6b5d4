import NormalForm.Directory.Basic
import NormalForm.Main
import NormalForm.Proofs.Command.Options
import NormalForm.Proofs.Grammar.Atomic
import NormalForm.Proofs.Load.Contents
import NormalForm.Proofs.Load.Faults
import NormalForm.Proofs.Load.Filter
import NormalForm.Proofs.Load.Guard
import NormalForm.Proofs.Load.Layout
import NormalForm.Proofs.Load.Reload
import NormalForm.Proofs.Load.Spread
import NormalForm.Proofs.Rule.Reading
import NormalForm.Proofs.Sampling.Choices
import NormalForm.Proofs.Sampling.Forced
import NormalForm.Proofs.Sampling.Uniform
import NormalForm.Proofs.Table.Extension
import NormalForm.Proofs.Table.Indexed
