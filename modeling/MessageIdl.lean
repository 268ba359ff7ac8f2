import MessageIdl.CommandLine.Samples
import MessageIdl.Main
import MessageIdl.Proofs.Schema.Actions
import MessageIdl.Proofs.Schema.Printing
import MessageIdl.Proofs.Peg.Misses
import MessageIdl.Proofs.Peg.Watching
import MessageIdl.Proofs.Peg.Failures
import MessageIdl.Proofs.Peg.LeftRecursion
import MessageIdl.Proofs.Schema.Continuing
import MessageIdl.Proofs.Schema.Places
import MessageIdl.Proofs.Schema.Slices
import MessageIdl.Proofs.Schema.Suggestions
import MessageIdl.Proofs.Schema.Hoisting
import MessageIdl.Proofs.Corpus.Layouts
import MessageIdl.Proofs.Schema.Carrying
import MessageIdl.Proofs.Schema.LineBreaks
import MessageIdl.Proofs.Files.Loading
import MessageIdl.Proofs.Peg.Shifting
import MessageIdl.Proofs.Schema.Crossing
import MessageIdl.Proofs.Schema.Joining
import MessageIdl.Proofs.CommandLine.Given
import MessageIdl.Proofs.Files.Places
import MessageIdl.Proofs.CommandLine.Runs
import MessageIdl.Peg.Statements
import MessageIdl.Proofs.Peg.Statements
import MessageIdl.Proofs.Corpus.Outlines
import MessageIdl.Proofs.Peg.Lookups
import MessageIdl.Proofs.Text.Codes
import MessageIdl.Proofs.Text.Json
import MessageIdl.Proofs.Schema.Json
import MessageIdl.Proofs.Schema.Erasure
import MessageIdl.Proofs.Peg.Cutting
import MessageIdl.Proofs.Schema.OpenTexts
import MessageIdl.Proofs.Schema.OpenComments
import MessageIdl.Proofs.Source.Lines
import MessageIdl.Proofs.Peg.Repeating
import MessageIdl.Proofs.Schema.Explanations
import MessageIdl.Proofs.Schema.Alternatives
import MessageIdl.Proofs.Peg.Bounds
import MessageIdl.Proofs.Peg.Remainders
import MessageIdl.Proofs.Schema.Skipping
import MessageIdl.Proofs.Corpus.Claiming
